import NamedStack.Script.Serialize
import NamedStack.Text.Blank

/-!
# Reading serialized scripts

A script is read into tokens, each an opcode or a push with its data. Codes from 1 to 75 push that
many bytes, and three more codes are followed by the number of bytes in one, two or four bytes, of
which the last is a number with sign. What cannot be read any further is a flaw; the tokens before
it are kept, so that a failure of an earlier token comes first.
-/

namespace NamedStack.Script

/-- One item of a serialized script. -/
inductive Token where
  /-- An opcode without data. -/
  | op (code : UInt8)
  /-- A push, with the code that announced it. -/
  | push (code : UInt8) (data : Bytes)
  deriving DecidableEq, Repr

/-- The number of bytes in which a push code is followed by its count; none if the code is itself
the count. -/
def countWidth (code : UInt8) : Nat :=
  if code = 0x4C then 1 else if code = 0x4D then 2 else if code = 0x4E then 4 else 0

/-- Whether a code pushes the data that follows it. -/
def carriesData (code : UInt8) : Bool := 1 ≤ code && code ≤ 0x4E

/-- The name of a code that pushes the data that follows it. -/
def pushName (code : UInt8) : Bytes :=
  if code ≤ 75 then text "OP_DATA_" ++ Bytes.ofNat code.toNat
  else text "OP_PUSHDATA" ++ Bytes.ofNat (countWidth code)

namespace Token

/-- The number of bytes that a token takes. -/
def size : Token → Nat
  | .op _ => 1
  | .push code data => 1 + countWidth code + data.length

/-- The code of a token. -/
def code : Token → UInt8
  | .op code | .push code _ => code

end Token

/-- A count as a number of 32 bits with sign. -/
def signed32 (n : Nat) : Int := if n < 2147483648 then n else n - 4294967296

/-- Data of a size in front of some bytes, and the bytes after it. -/
def cut (code : UInt8) (size : Nat) (rest : Bytes) : Token × Bytes :=
  (.push code (rest.take size), rest.drop size)

/-- A push whose code is its count. -/
def readPlain (code : UInt8) (rest : Bytes) : Except ScriptFlaw (Token × Bytes) :=
  if rest.length < code.toNat then
    .error (.truncated (pushName code) (code.toNat + 1) (rest.length + 1))
  else .ok (cut code code.toNat rest)

/-- The count in front of some bytes. -/
def count (code : UInt8) (rest : Bytes) : Int :=
  signed32 (Bytes.toNatLE (rest.take (countWidth code)))

/-- A push whose code is followed by its count. -/
def readCounted (code : UInt8) (rest : Bytes) : Except ScriptFlaw (Token × Bytes) :=
  if rest.length < countWidth code then
    .error (.truncated (pushName code) (countWidth code) rest.length)
  else if count code rest < 0 ∨ (rest.length - countWidth code : Nat) < count code rest then
    .error (.overrun (pushName code) (count code rest) (rest.length - countWidth code))
  else .ok (cut code (count code rest).toNat (rest.drop (countWidth code)))

/-- The token with a code in front of some bytes, and the bytes after it. -/
def readToken (code : UInt8) (rest : Bytes) : Except ScriptFlaw (Token × Bytes) :=
  if carriesData code then
    if code ≤ 75 then readPlain code rest else readCounted code rest
  else .ok (.op code, rest)

/-- Reading a token leaves no more bytes than there were. -/
theorem length_le_of_readToken {code : UInt8} {rest left : Bytes} {t : Token}
    (h : readToken code rest = .ok (t, left)) : left.length ≤ rest.length := by
  unfold readToken readPlain readCounted cut at h
  split at h
  · split at h <;> (repeat' split at h) <;> simp at h
    · simp [← h.2]
    · simp only [← h.2, List.length_drop]
      omega
  · simp only [Except.ok.injEq, Prod.mk.injEq] at h
    simp [← h.2]

/-- The tokens of a script, up to the first flaw if there is one. -/
def tokens : Bytes → List Token × Option ScriptFlaw
  | [] => ([], none)
  | code :: rest =>
    match h : readToken code rest with
    | .error flaw => ([], some flaw)
    | .ok (t, left) =>
      have := length_le_of_readToken h
      let (ts, flaw) := tokens left
      (t :: ts, flaw)
termination_by script => script.length
decreasing_by simp only [List.length_cons]; omega

/-- The instruction of a token that ends at an offset. -/
def instr (offset : Nat) : Token → Except Cause Instr
  | .push _ data => .ok (.push data)
  | .op code =>
    match Opcode.ofCode? code with
    | some o => .ok (.op o)
    | none => .error (.unsupported offset code)

/-- The instructions of tokens that start at an offset. -/
def instrs (offset : Nat) : List Token → Except Cause (List Instr)
  | [] => .ok []
  | t :: ts =>
    match instr (offset + t.size) t with
    | .error c => .error c
    | .ok first =>
      match instrs (offset + t.size) ts with
      | .error c => .error c
      | .ok others => .ok (first :: others)

/-- The program in a serialized script. Every push becomes a push of data, also one that holds a
script. -/
def decode (script : Bytes) : Except Cause (List Instr) :=
  match instrs 0 (tokens script).1, (tokens script).2 with
  | .error c, _ => .error c
  | .ok _, some flaw => .error (.script flaw)
  | .ok ops, none => .ok ops

/-- The program in a script that is written in hexadecimal, with white space around it. -/
def decodeHex (b : Bytes) : Except Cause (List Instr) :=
  match Hex.decode (Text.trim b) with
  | .error e => .error (.script (.notHex e))
  | .ok script => decode script

end NamedStack.Script
