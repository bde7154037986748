import NamedStack.Instr

/-!
# Serialized scripts

A resolved program is written as bytes: an opcode as its code, data as its shortest push, and an
inner script as a push of its own bytes. A script has at most 10000 bytes and a pushed element at
most 520. An instruction that still refers to a name cannot be written; such an instruction is
reported before any limit is.
-/

namespace NamedStack.Script

/-- The most bytes that a script may have. -/
def maxLen : Nat := 10000

/-- The most bytes that one pushed element may have. -/
def maxElement : Nat := 520

/-- The shortest push of data. An empty element and a lone zero byte are both written as the opcode
for zero, and the numbers from -1 to 16 have opcodes of their own. -/
def pushForm : Bytes → Bytes
  | [] => [0]
  | [b] =>
    if b = 0 then [0]
    else if b ≤ 16 then [0x50 + b]
    else if b = 0x81 then [0x4F]
    else [1, b]
  | data =>
    if data.length ≤ 75 then UInt8.ofNat data.length :: data
    else if data.length ≤ 255 then 0x4C :: UInt8.ofNat data.length :: data
    else if data.length ≤ 65535 then 0x4D :: Bytes.littleEndian 2 data.length ++ data
    else 0x4E :: Bytes.littleEndian 4 data.length ++ data

/-- What one instruction contributes to a script. -/
inductive Piece where
  /-- An opcode. -/
  | opcode (o : Opcode)
  /-- A push of data. -/
  | data (d : Bytes)
  deriving DecidableEq, Repr

namespace Piece

/-- The bytes of a piece. -/
def form : Piece → Bytes
  | .opcode o => [o.code]
  | .data d => pushForm d

/-- Why a piece cannot follow a script of some length: the script gets too long, which is looked at
first, or the element is too big. -/
def flaw? (length : Nat) : Piece → Option ScriptFlaw
  | .opcode _ => if maxLen < length + 1 then some .opcodeOverflow else none
  | .data d =>
    if maxLen < length + (pushForm d).length then some (.dataOverflow (pushForm d).length)
    else if maxElement < d.length then some (.elementTooBig d.length)
    else none

end Piece

/-- The script with one more piece behind it. -/
def append (script : Bytes) (p : Piece) : Except ScriptFlaw Bytes :=
  match p.flaw? script.length with
  | some flaw => .error flaw
  | none => .ok (script ++ p.form)

/-- The script made of pieces, or the first flaw. -/
def build (pieces : List Piece) : Except ScriptFlaw Bytes := pieces.foldlM append []

/-- The script made of pieces, with a flaw as the problem of the whole. -/
def assemble (pieces : List Piece) : Except Problem Bytes :=
  match build pieces with
  | .ok script => .ok script
  | .error flaw => .error { cause := .script flaw }

/-- The problem of an instruction that still refers to a name. -/
def unresolved (index : Nat) (i : Instr) : Problem := { cause := .unresolved index i.render }

/-- The note that a problem lies in the inner script at a position. -/
def inInner (index : Nat) : Note := .context (text "inner script at " ++ Bytes.ofNat index)

mutual

/-- The piece that the instruction at a position contributes. -/
def piece (index : Nat) : Instr → Except Problem Piece
  | .op o => .ok (.opcode o)
  | .push d => .ok (.data d)
  | .inner ops =>
    match pieces 0 ops >>= assemble with
    | .ok script => .ok (.data script)
    | .error p => .error (p.note (inInner index))
  | .assume name => .error (unresolved index (.assume name))
  | .assign name => .error (unresolved index (.assign name))
  | .var name => .error (unresolved index (.var name))
  | .call name args => .error (unresolved index (.call name args))
termination_by structural i => i

/-- The pieces that instructions contribute, the first one standing at a position. -/
def pieces (index : Nat) : List Instr → Except Problem (List Piece)
  | [] => .ok []
  | i :: rest =>
    match piece index i with
    | .error p => .error p
    | .ok first =>
      match pieces (index + 1) rest with
      | .error p => .error p
      | .ok others => .ok (first :: others)
termination_by structural ops => ops

end

/-- The serialized form of a program. -/
def serialize (ops : List Instr) : Except Problem Bytes := pieces 0 ops >>= assemble

end NamedStack.Script
