import NamedStack.Source.Lexer
import NamedStack.Source.Program
import NamedStack.Text.Blank

/-!
# Reading programs

Tokens are read from left to right by a machine that holds the constructs still open: an inner
script, an argument of a call, or the body of a function. A call is complete only when the token
after it opens no further argument, and a function head has to be followed by its body.

A single token is a reference in parentheses, pushed data in hexadecimal, a quoted string, a decimal
integer or the name of an opcode, in this order.
-/

namespace NamedStack

namespace Name

/-- Whether a byte may stand in a name, at its first place or after it. -/
def isNameByte (first : Bool) (c : UInt8) : Bool :=
  c = 95 || 97 ≤ c && c ≤ 122 || 65 ≤ c && c ≤ 90 || !first && 48 ≤ c && c ≤ 57

/-- Whether a byte string is a name: letters, digits and underscores, and no digit in front. -/
def isValid : Bytes → Bool
  | [] => false
  | c :: rest => isNameByte true c && rest.all (isNameByte false)

end Name

namespace Source

/-- A keyword with arguments in parentheses. -/
structure Form where
  keyword : Bytes
  args : List Bytes
  deriving DecidableEq, Repr

/-- Read a keyword with arguments in parentheses. The arguments are separated by commas, and blanks
around them are dropped. -/
def Form.ofToken? (tok : Bytes) : Option Form :=
  let keyword := tok.takeWhile (· ≠ 40)
  if keyword.isEmpty || keyword.length = tok.length || tok.getLast? ≠ some 41 then none
  else
    let inside := Text.trim ((tok.drop (keyword.length + 1)).dropLast)
    let args := if inside.isEmpty then [] else (Bytes.splitOn 44 inside).map Text.trim
    some { keyword, args }

/-- The content of a quoted string without the quotes; a backslash gives way to the byte after
it. -/
def unescape : Bytes → Bytes
  | [] => []
  | 92 :: c :: rest => c :: unescape rest
  | c :: rest => c :: unescape rest

/-- The content of a token between single quotes. -/
def quoted? (tok : Bytes) : Option Bytes :=
  match tok with
  | 39 :: rest => if rest.getLast? = some 39 then some (unescape rest.dropLast) else none
  | _ => none

/-- The instruction of a token that is no bracket, call or declaration. -/
def atom (tok : Bytes) : Except Failure Instr :=
  match Form.ofToken? tok with
  | some { keyword, args := [name] } =>
    if !Name.isValid name then fail (.badToken tok)
    else if keyword = text "assume" then .ok (.assume name)
    else if keyword = text "assign" then .ok (.assign name)
    else if keyword = text "var" then .ok (.var name)
    else fail (.badToken tok)
  | some _ => fail (.badToken tok)
  | none =>
    match Bytes.dropFront? (text "0x") tok with
    | some digits =>
      match Hex.decode digits with
      | .ok data => .ok (.push data)
      | .error e => fail (.badHexToken tok e)
    | none =>
      match quoted? tok with
      | some data => .ok (.push data)
      | none =>
        match Text.readInt tok with
        | .ok n => (Instr.ofInt n).mapError .fault
        | .error _ =>
          match Opcode.ofName? tok with
          | some o => .ok (.op o)
          | none => fail (.badToken tok)

/-- A construct that is open. -/
inductive Open where
  /-- An inner script. -/
  | inner
  /-- An argument of a call, after the arguments read before it. -/
  | argument (name : Name) (args : List (List Instr))
  /-- The body of a function. -/
  | body (name : Name) (params : List Name)

/-- The token that closes a construct. -/
def Open.close : Open → Bytes
  | .inner => text "]"
  | .argument _ _ | .body _ _ => text "\x7d"

/-- What was read last and waits for a brace. -/
inductive Waiting where
  | nothing
  /-- A call, which the next brace gives one more argument. -/
  | call (name : Name) (args : List (List Instr))
  /-- A function head, which needs a body. -/
  | function (name : Name) (params : List Name)

/-- The state of reading. -/
structure Reader where
  stack : List Name := []
  functions : List Function := []
  /-- The open constructs, innermost first, each with the instructions before it, in reverse. -/
  opened : List (Open × List Instr) := []
  /-- The instructions read in the innermost construct, in reverse. -/
  ops : List Instr := []
  waiting : Waiting := .nothing

namespace Reader

/-- Open a construct. -/
def enter (r : Reader) (o : Open) : Reader :=
  { r with opened := (o, r.ops) :: r.opened, ops := [], waiting := .nothing }

/-- Close the innermost construct. -/
def leave (r : Reader) (o : Open) (before : List Instr) (opened : List (Open × List Instr)) :
    Reader :=
  let content := r.ops.reverse
  match o with
  | .inner => { r with opened, ops := .inner content :: before }
  | .argument name args =>
    { r with opened, ops := before, waiting := .call name (args ++ [content]) }
  | .body name params =>
    let f : Function := { name, params, body := content }
    { r with opened, ops := before, functions := r.functions ++ [f] }

/-- Read a declaration. -/
def declare (r : Reader) (f : Form) : Except Failure Reader :=
  if !f.args.all Name.isValid then
    fail (.badToken (f.keyword ++ text "(" ++ Name.commaList f.args ++ text ")"))
  else if f.keyword = text "stack" then .ok { r with stack := r.stack ++ f.args }
  else match f.args with
    | [] => fail (.malformed .unnamedFunction)
    | name :: params => .ok { r with waiting := .function name params }

/-- Read a call. -/
def call (r : Reader) (f : Form) : Except Failure Reader :=
  match f.args with
  | [name] =>
    if Name.isValid name then .ok { r with waiting := .call name [] }
    else fail (.badToken (Instr.form "call" name))
  | args => fail (.badToken (Instr.form "call" (Name.commaList args)))

/-- Read a token while nothing waits for a brace. -/
def plain (r : Reader) (tok : Bytes) : Except Failure Reader :=
  match r.opened with
  | (o, before) :: opened =>
    if tok = o.close then .ok (r.leave o before opened) else other
  | [] => other
where
  /-- Read a token that closes nothing. -/
  other : Except Failure Reader :=
    if tok = text "]" ∨ tok = text "\x7d" then fail (.malformed (.unexpected tok))
    else if tok = text "\x7b" then fail (.malformed .strayBrace)
    else if tok = text "[" then .ok (r.enter .inner)
    else match Form.ofToken? tok with
      | some f =>
        if f.keyword = text "call" then r.call f
        else if f.keyword = text "func" ∨ f.keyword = text "stack" then
          if r.opened.isEmpty then r.declare f else fail (.malformed (.notAtTop f.keyword))
        else single
      | none => single
  /-- Read a token that is an instruction by itself. -/
  single : Except Failure Reader := do
    let i ← atom tok
    return { r with ops := i :: r.ops }

/-- Complete a call that gets no further argument. -/
def settle (r : Reader) : Except Failure Reader :=
  match r.waiting with
  | .nothing => .ok r
  | .call name args => .ok { r with ops := .call name args :: r.ops, waiting := .nothing }
  | .function name _ => fail (.malformed (.noBody name))

/-- Read one token. -/
def read (r : Reader) (tok : Bytes) : Except Failure Reader :=
  if tok = text "\x7b" then
    match r.waiting with
    | .nothing => r.plain tok
    | .call name args => .ok (r.enter (.argument name args))
    | .function name params => .ok (r.enter (.body name params))
  else do (← r.settle).plain tok

/-- The program that was read when the text ends. -/
def finish (r : Reader) : Except Failure Program := do
  let r ← r.settle
  match r.opened with
  | (o, _) :: _ => fail (.malformed (.missing o.close))
  | [] => return { stack := r.stack, functions := r.functions, ops := r.ops.reverse }

end Reader

end Source

namespace Program

/-- The program with the given tokens. -/
def ofTokens (toks : List Bytes) : Except Failure Program := do
  (← toks.foldlM Source.Reader.read {}).finish

/-- Read a program. -/
def parse (src : Bytes) : Except Failure Program :=
  match Lexer.tokens src with
  | .ok toks => ofTokens toks
  | .error c => fail c

/-- Read instructions without declarations. -/
def assemble (src : Bytes) : Except Failure (List Instr) := do
  let p ← parse src
  if p.stack.isEmpty && p.functions.isEmpty then return p.ops
  else fail (.malformed .declarations)

end Program

end NamedStack
