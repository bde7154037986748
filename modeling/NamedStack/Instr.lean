import NamedStack.Opcode

/-!
# Instructions

A program is a list of opcodes, pushed data, reads and writes of named values, calls and inner
scripts. Calls hold their arguments and inner scripts their content, which are programs again. The
module has the type, its equality, the values that an instruction pushes, and the written form: a
list of tokens, printed with a space between two of them.
-/

namespace NamedStack

/-- One instruction. -/
inductive Instr where
  /-- An opcode. -/
  | op (o : Opcode)
  /-- Push data. -/
  | push (data : Bytes)
  /-- Read a value of the initial stack. -/
  | assume (name : Name)
  /-- Name the item on top of the stack. -/
  | assign (name : Name)
  /-- Read a named value, a parameter or a value of the initial stack. -/
  | var (name : Name)
  /-- Call a function. -/
  | call (name : Name) (args : List (List Instr))
  /-- Push a serialized program. -/
  | inner (ops : List Instr)
  deriving Repr

namespace Instr

mutual

/-- Whether two instructions are the same. -/
def same : Instr → Instr → Bool
  | .op a, .op b => a = b
  | .push a, .push b => a = b
  | .assume a, .assume b => a = b
  | .assign a, .assign b => a = b
  | .var a, .var b => a = b
  | .call a as, .call b bs => a = b && sameBlocks as bs
  | .inner as, .inner bs => sameList as bs
  | _, _ => false
termination_by structural a => a

/-- Whether two programs are the same. -/
def sameList : List Instr → List Instr → Bool
  | [], [] => true
  | a :: as, b :: bs => same a b && sameList as bs
  | _, _ => false
termination_by structural a => a

/-- Whether two lists of programs are the same. -/
def sameBlocks : List (List Instr) → List (List Instr) → Bool
  | [], [] => true
  | a :: as, b :: bs => sameList a b && sameBlocks as bs
  | _, _ => false
termination_by structural a => a

end

mutual

/-- The comparison decides equality. -/
theorem same_iff : ∀ a b : Instr, same a b = true ↔ a = b
  | .op a, b => by cases b <;> simp [same]
  | .push a, b => by cases b <;> simp [same]
  | .assume a, b => by cases b <;> simp [same]
  | .assign a, b => by cases b <;> simp [same]
  | .var a, b => by cases b <;> simp [same]
  | .call a as, b => by
    cases b with
    | call b bs => simp [same, sameBlocks_iff as bs]
    | _ => simp [same]
  | .inner as, b => by
    cases b with
    | inner bs => simp [same, sameList_iff as bs]
    | _ => simp [same]

/-- The comparison of programs decides equality. -/
theorem sameList_iff : ∀ a b : List Instr, sameList a b = true ↔ a = b
  | [], b => by cases b <;> simp [sameList]
  | a :: as, b => by
    cases b with
    | nil => simp [sameList]
    | cons b bs => simp [sameList, same_iff a b, sameList_iff as bs]

/-- The comparison of lists of programs decides equality. -/
theorem sameBlocks_iff : ∀ a b : List (List Instr), sameBlocks a b = true ↔ a = b
  | [], b => by cases b <;> simp [sameBlocks]
  | a :: as, b => by
    cases b with
    | nil => simp [sameBlocks]
    | cons b bs => simp [sameBlocks, sameList_iff a b, sameBlocks_iff as bs]

end

instance : DecidableEq Instr := fun a b => decidable_of_iff _ (same_iff a b)

/-- The shortest instruction that pushes an integer. -/
def number (n : Int) : Instr :=
  match SmallInt.ofInt? n with
  | some s => .op (.small s)
  | none => .push (ScriptNum.ofInt n)

/-- The shortest instruction that pushes a 64-bit integer; the least one cannot be pushed. -/
def ofInt (n : Int) : Except Fault Instr :=
  match SmallInt.ofInt? n with
  | some s => .ok (.op (.small s))
  | none => (ScriptNum.encode n).map .push

/-- The integer that an instruction pushes, if it is a small integer or short data. -/
def toInt? : Instr → Option Int
  | .op o => o.smallInt?
  | .push data => ScriptNum.read? data
  | _ => none

/-- The bytes that a literal or a small integer pushes. -/
def literal? : Instr → Option Bytes
  | .push data => some data
  | .op o => o.smallInt?.map ScriptNum.ofInt
  | _ => none

/-- The opcode of an instruction. -/
def opcode? : Instr → Option Opcode
  | .op o => some o
  | _ => none

/-- The name that a read or a write refers to. -/
def refName? : Instr → Option Name
  | .assume name | .assign name | .var name => some name
  | _ => none

/-- Whether the instruction has to be resolved before a script can be written. -/
def isReference : Instr → Bool
  | .assume _ | .assign _ | .var _ | .call _ _ => true
  | _ => false

/-- Whether the instruction is a call. -/
def isCall : Instr → Bool
  | .call _ _ => true
  | _ => false

/-- The net number of items that an instruction adds to the stack. -/
def delta : Instr → Int
  | .op o => o.info.delta
  | .push _ | .assume _ | .var _ | .inner _ => 1
  | .assign _ | .call _ _ => 0

/-- A keyword with its argument in parentheses. -/
def form (keyword : String) (name : Bytes) : Bytes := text keyword ++ text "(" ++ name ++ text ")"

mutual

/-- The tokens that an instruction is written as. -/
def tokens : Instr → List Bytes
  | .op o => [o.name]
  | .push data => [text "0x" ++ Hex.encode data]
  | .assume name => [form "assume" name]
  | .assign name => [form "assign" name]
  | .var name => [form "var" name]
  | .call name args => form "call" name :: blockTokens args
  | .inner ops => text "[" :: listTokens ops ++ [text "]"]

/-- The tokens of a program. -/
def listTokens : List Instr → List Bytes
  | [] => []
  | i :: rest => tokens i ++ listTokens rest

/-- The tokens of programs, each between braces. -/
def blockTokens : List (List Instr) → List Bytes
  | [] => []
  | ops :: rest => text "\x7b" :: listTokens ops ++ text "\x7d" :: blockTokens rest

end

/-- The written form of an instruction. -/
def render (i : Instr) : Bytes := Bytes.join (text " ") i.tokens

/-- The written form of a program. -/
def renderList (ops : List Instr) : Bytes := Bytes.join (text " ") (listTokens ops)

/-- The tokens of a program are those of its instructions in order. -/
theorem listTokens_eq (ops : List Instr) : listTokens ops = ops.flatMap tokens := by
  induction ops with
  | nil => simp [listTokens]
  | cons i rest ih => simp [listTokens, ih]

end Instr

end NamedStack
