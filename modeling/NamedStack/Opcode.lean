import NamedStack.ScriptNum

/-!
# Opcodes

The opcodes that the compiler supports, grouped by what they do, and one table with everything that
is known of each: its code, its name, the net number of items it adds to the stack, the items it
reads and whether it ends a script that does not verify. Codes and names are read back by a search
through the list of all opcodes.
-/

namespace NamedStack

/-- The integers that have an opcode of their own. -/
abbrev SmallInt := { n : Int // -1 ≤ n ∧ n ≤ 16 }

/-- The small integer with a value, if the value is small enough. -/
def SmallInt.ofInt? (n : Int) : Option SmallInt :=
  if h : -1 ≤ n ∧ n ≤ 16 then some ⟨n, h⟩ else none

/-- Arithmetic on one number. -/
inductive UnaryOp where
  | add1 | sub1 | negate | abs | not | notZero
  deriving DecidableEq, Repr

/-- Arithmetic on two numbers. -/
inductive BinaryOp where
  | add | sub | boolAnd | boolOr | numEqual | numNotEqual | lessThan | greaterThan | lessOrEqual
  | greaterOrEqual | min | max
  deriving DecidableEq, Repr

/-- Hash functions on one item. -/
inductive HashOp where
  | ripemd160 | sha1 | sha256 | hash160 | hash256
  deriving DecidableEq, Repr

/-- Opcodes that end any script that holds them. -/
inductive DisabledOp where
  | cat | substr | left | right | invert | and | or | xor | mul2 | div2 | mul | div | mod | lshift
  | rshift
  deriving DecidableEq, Repr

/-- Opcodes without effect that are kept for later use. -/
inductive ReservedOp where
  | nop1 | nop4 | nop5 | nop6 | nop7 | nop8 | nop9 | nop10
  deriving DecidableEq, Repr

/-- The supported opcodes. -/
inductive Opcode where
  /-- Push a small integer. -/
  | small (n : SmallInt)
  | nop | opIf | opNotIf | opElse | opEndIf | verify | opReturn
  | toAltStack | fromAltStack | ifDup | depth | drop | dup | nip | over | pick | roll | rot | swap
  | tuck | drop2 | dup2 | dup3 | over2 | rot2 | swap2
  | size | equal | equalVerify
  | unary (u : UnaryOp)
  | binary (b : BinaryOp)
  | numEqualVerify | within
  | hash (h : HashOp)
  | codeSeparator | checkSig | checkSigVerify | checkMultiSig | checkMultiSigVerify
  | checkLockTimeVerify | checkSequenceVerify
  | reserved (r : ReservedOp)
  | disabled (d : DisabledOp)
  deriving DecidableEq, Repr

namespace Opcode

/-- What is known of an opcode. -/
structure Info where
  code : UInt8
  /-- The name without the common `OP_` in front. -/
  stem : String
  /-- The net number of items added to the stack. -/
  delta : Int
  /-- The positions of the items read, the top of the stack being 1. -/
  args : List Int
  /-- Whether a false value ends the script. -/
  verifier : Bool := false
  deriving Repr

/-- The code of a small integer's opcode. -/
def smallCode (n : SmallInt) : UInt8 := if n.val = 0 then 0 else UInt8.ofNat (80 + n.val).toNat

/-- The name of a small integer's opcode. -/
def smallStem (n : SmallInt) : String := if n.val = -1 then "1NEGATE" else toString n.val

/-- The table of arithmetic on one number. -/
def unaryInfo : UnaryOp → Info
  | .add1 => ⟨0x8B, "1ADD", 0, [1], false⟩
  | .sub1 => ⟨0x8C, "1SUB", 0, [1], false⟩
  | .negate => ⟨0x8F, "NEGATE", 0, [1], false⟩
  | .abs => ⟨0x90, "ABS", 0, [1], false⟩
  | .not => ⟨0x91, "NOT", 0, [1], false⟩
  | .notZero => ⟨0x92, "0NOTEQUAL", 0, [1], false⟩

/-- The table of arithmetic on two numbers. -/
def binaryInfo : BinaryOp → Info
  | .add => ⟨0x93, "ADD", -1, [1, 2], false⟩
  | .sub => ⟨0x94, "SUB", -1, [1, 2], false⟩
  | .boolAnd => ⟨0x9A, "BOOLAND", -1, [1, 2], false⟩
  | .boolOr => ⟨0x9B, "BOOLOR", -1, [1, 2], false⟩
  | .numEqual => ⟨0x9C, "NUMEQUAL", -1, [1, 2], false⟩
  | .numNotEqual => ⟨0x9E, "NUMNOTEQUAL", -1, [1, 2], false⟩
  | .lessThan => ⟨0x9F, "LESSTHAN", -1, [1, 2], false⟩
  | .greaterThan => ⟨0xA0, "GREATERTHAN", -1, [1, 2], false⟩
  | .lessOrEqual => ⟨0xA1, "LESSTHANOREQUAL", -1, [1, 2], false⟩
  | .greaterOrEqual => ⟨0xA2, "GREATERTHANOREQUAL", -1, [1, 2], false⟩
  | .min => ⟨0xA3, "MIN", -1, [1, 2], false⟩
  | .max => ⟨0xA4, "MAX", -1, [1, 2], false⟩

/-- The table of hash functions. -/
def hashInfo : HashOp → Info
  | .ripemd160 => ⟨0xA6, "RIPEMD160", 0, [1], false⟩
  | .sha1 => ⟨0xA7, "SHA1", 0, [1], false⟩
  | .sha256 => ⟨0xA8, "SHA256", 0, [1], false⟩
  | .hash160 => ⟨0xA9, "HASH160", 0, [1], false⟩
  | .hash256 => ⟨0xAA, "HASH256", 0, [1], false⟩

/-- The table of disabled opcodes. -/
def disabledInfo : DisabledOp → Info
  | .cat => ⟨0x7E, "CAT", -1, [1, 2], false⟩
  | .substr => ⟨0x7F, "SUBSTR", -2, [1, 2, 3], false⟩
  | .left => ⟨0x80, "LEFT", -1, [1, 2], false⟩
  | .right => ⟨0x81, "RIGHT", -1, [1, 2], false⟩
  | .invert => ⟨0x83, "INVERT", 0, [1], false⟩
  | .and => ⟨0x84, "AND", -1, [1, 2], false⟩
  | .or => ⟨0x85, "OR", -1, [1, 2], false⟩
  | .xor => ⟨0x86, "XOR", -1, [1, 2], false⟩
  | .mul2 => ⟨0x8D, "2MUL", 0, [1], false⟩
  | .div2 => ⟨0x8E, "2DIV", 0, [1], false⟩
  | .mul => ⟨0x95, "MUL", -1, [1, 2], false⟩
  | .div => ⟨0x96, "DIV", -1, [1, 2], false⟩
  | .mod => ⟨0x97, "MOD", -1, [1, 2], false⟩
  | .lshift => ⟨0x98, "LSHIFT", -1, [1, 2], false⟩
  | .rshift => ⟨0x99, "RSHIFT", -1, [1, 2], false⟩

/-- The table of reserved opcodes. -/
def reservedInfo : ReservedOp → Info
  | .nop1 => ⟨0xB0, "NOP1", 0, [], false⟩
  | .nop4 => ⟨0xB3, "NOP4", 0, [], false⟩
  | .nop5 => ⟨0xB4, "NOP5", 0, [], false⟩
  | .nop6 => ⟨0xB5, "NOP6", 0, [], false⟩
  | .nop7 => ⟨0xB6, "NOP7", 0, [], false⟩
  | .nop8 => ⟨0xB7, "NOP8", 0, [], false⟩
  | .nop9 => ⟨0xB8, "NOP9", 0, [], false⟩
  | .nop10 => ⟨0xB9, "NOP10", 0, [], false⟩

/-- The table of all opcodes. The effect of `PICK`, `ROLL`, `IFDUP` and the multisignature checks
depends on what is on the stack; what stands here holds until the literals before them are known. -/
def info : Opcode → Info
  | .small n => ⟨smallCode n, smallStem n, 1, [], false⟩
  | .nop => ⟨0x61, "NOP", 0, [], false⟩
  | .opIf => ⟨0x63, "IF", -1, [1], false⟩
  | .opNotIf => ⟨0x64, "NOTIF", -1, [1], false⟩
  | .opElse => ⟨0x67, "ELSE", 0, [], false⟩
  | .opEndIf => ⟨0x68, "ENDIF", 0, [], false⟩
  | .verify => ⟨0x69, "VERIFY", -1, [1], true⟩
  | .opReturn => ⟨0x6A, "RETURN", 0, [], false⟩
  | .toAltStack => ⟨0x6B, "TOALTSTACK", -1, [1], false⟩
  | .fromAltStack => ⟨0x6C, "FROMALTSTACK", 1, [], false⟩
  | .drop2 => ⟨0x6D, "2DROP", -2, [1, 2], false⟩
  | .dup2 => ⟨0x6E, "2DUP", 2, [1, 2], false⟩
  | .dup3 => ⟨0x6F, "3DUP", 3, [1, 2, 3], false⟩
  | .over2 => ⟨0x70, "2OVER", 2, [3, 4], false⟩
  | .rot2 => ⟨0x71, "2ROT", 0, [5, 6], false⟩
  | .swap2 => ⟨0x72, "2SWAP", 0, [1, 2, 3, 4], false⟩
  | .ifDup => ⟨0x73, "IFDUP", 0, [1], false⟩
  | .depth => ⟨0x74, "DEPTH", 1, [], false⟩
  | .drop => ⟨0x75, "DROP", -1, [1], false⟩
  | .dup => ⟨0x76, "DUP", 1, [1], false⟩
  | .nip => ⟨0x77, "NIP", -1, [2], false⟩
  | .over => ⟨0x78, "OVER", 1, [2], false⟩
  | .pick => ⟨0x79, "PICK", 0, [], false⟩
  | .roll => ⟨0x7A, "ROLL", -1, [], false⟩
  | .rot => ⟨0x7B, "ROT", 0, [1, 2, 3], false⟩
  | .swap => ⟨0x7C, "SWAP", 0, [1, 2], false⟩
  | .tuck => ⟨0x7D, "TUCK", 1, [1, 2], false⟩
  | .size => ⟨0x82, "SIZE", 1, [1], false⟩
  | .equal => ⟨0x87, "EQUAL", -1, [1, 2], false⟩
  | .equalVerify => ⟨0x88, "EQUALVERIFY", -2, [1, 2], true⟩
  | .unary u => unaryInfo u
  | .binary b => binaryInfo b
  | .numEqualVerify => ⟨0x9D, "NUMEQUALVERIFY", -2, [1, 2], true⟩
  | .within => ⟨0xA5, "WITHIN", -2, [1, 2, 3], false⟩
  | .hash h => hashInfo h
  | .codeSeparator => ⟨0xAB, "CODESEPARATOR", 0, [], false⟩
  | .checkSig => ⟨0xAC, "CHECKSIG", -1, [1, 2], false⟩
  | .checkSigVerify => ⟨0xAD, "CHECKSIGVERIFY", -2, [1, 2], true⟩
  | .checkMultiSig => ⟨0xAE, "CHECKMULTISIG", 0, [], false⟩
  | .checkMultiSigVerify => ⟨0xAF, "CHECKMULTISIGVERIFY", 0, [], true⟩
  | .checkLockTimeVerify => ⟨0xB1, "CHECKLOCKTIMEVERIFY", 0, [1], false⟩
  | .checkSequenceVerify => ⟨0xB2, "CHECKSEQUENCEVERIFY", 0, [1], false⟩
  | .reserved r => reservedInfo r
  | .disabled d => disabledInfo d

/-- The code of an opcode in a serialized script. -/
def code (o : Opcode) : UInt8 := o.info.code

/-- The name of an opcode. -/
def name (o : Opcode) : Bytes := text "OP_" ++ text o.info.stem

/-- The opcode that pushes zero. -/
def zero : Opcode := .small ⟨0, by decide⟩

/-- The opcode that pushes one. -/
def one : Opcode := .small ⟨1, by decide⟩

/-- The opcode that pushes two. -/
def two : Opcode := .small ⟨2, by decide⟩

/-- The opcode that pushes minus one. -/
def minusOne : Opcode := .small ⟨-1, by decide⟩

/-- All opcodes, in the order of their codes. -/
def all : List Opcode :=
  [Opcode.zero, .minusOne] ++
  ((List.range 16).filterMap fun (n : Nat) => (SmallInt.ofInt? (n + 1)).map .small) ++
  [Opcode.nop, .opIf, .opNotIf, .opElse, .opEndIf, .verify, .opReturn, .toAltStack, .fromAltStack,
    .drop2, .dup2, .dup3, .over2, .rot2, .swap2, .ifDup, .depth, .drop, .dup, .nip, .over, .pick,
    .roll, .rot, .swap, .tuck, .disabled .cat, .disabled .substr, .disabled .left, .disabled .right,
    .size, .disabled .invert, .disabled .and, .disabled .or, .disabled .xor, .equal, .equalVerify,
    .unary .add1, .unary .sub1, .disabled .mul2, .disabled .div2, .unary .negate, .unary .abs,
    .unary .not, .unary .notZero, .binary .add, .binary .sub, .disabled .mul, .disabled .div,
    .disabled .mod, .disabled .lshift, .disabled .rshift, .binary .boolAnd, .binary .boolOr,
    .binary .numEqual, .numEqualVerify, .binary .numNotEqual, .binary .lessThan,
    .binary .greaterThan, .binary .lessOrEqual, .binary .greaterOrEqual, .binary .min, .binary .max,
    .within, .hash .ripemd160, .hash .sha1, .hash .sha256, .hash .hash160, .hash .hash256,
    .codeSeparator, .checkSig, .checkSigVerify, .checkMultiSig, .checkMultiSigVerify,
    .reserved .nop1, .checkLockTimeVerify, .checkSequenceVerify, .reserved .nop4, .reserved .nop5,
    .reserved .nop6, .reserved .nop7, .reserved .nop8, .reserved .nop9, .reserved .nop10]

/-- The opcode with a code. -/
def ofCode? (c : UInt8) : Option Opcode := all.find? fun o => o.code = c

/-- The opcode with a code, where the code has to be supported. -/
def ofCode (c : UInt8) : Except Fault Opcode :=
  match ofCode? c with
  | some o => .ok o
  | none => .error (.raised (text "linear: unsupported opcode 0x" ++ Hex.encode [c]))

/-- Names that are read but never written. -/
def aliases : List (Bytes × Opcode) :=
  [(text "OP_FALSE", .zero), (text "OP_TRUE", .one), (text "OP_NOP2", .checkLockTimeVerify),
    (text "OP_NOP3", .checkSequenceVerify)]

/-- The text in upper case, as far as opcode names are concerned: the ASCII letters, and the two
characters outside of ASCII (dotless i and long s) whose upper-case form is an ASCII letter. -/
def upper : Bytes → Bytes
  | [] => []
  | 0xC4 :: 0xB1 :: rest => 73 :: upper rest
  | 0xC5 :: 0xBF :: rest => 83 :: upper rest
  | c :: rest => (if 97 ≤ c ∧ c ≤ 122 then c - 32 else c) :: upper rest

/-- The name with `OP_` in front of it, unless it is there. -/
def fullName (b : Bytes) : Bytes := if (text "OP_").isPrefixOf b then b else text "OP_" ++ b

/-- The opcode with a name; case and a missing `OP_` do not matter. -/
def ofName? (b : Bytes) : Option Opcode :=
  let full := fullName (upper b)
  (all.find? fun o => o.name = full) <|> aliases.lookup full

/-- The small integer that an opcode pushes. -/
def smallInt? : Opcode → Option Int
  | .small n => some n.val
  | _ => none

/-- Whether an opcode opens, splits or closes a conditional. -/
def isMarker : Opcode → Bool
  | .opIf | .opNotIf | .opElse | .opEndIf => true
  | _ => false

/-- Whether an opcode reads exactly the two items on top. -/
def isBinary (o : Opcode) : Bool := o.info.args == [1, 2]

/-- The number of bytes that a hash function returns. -/
def hashSize? : Opcode → Option Nat
  | .hash .ripemd160 | .hash .sha1 | .hash .hash160 => some 20
  | .hash .sha256 | .hash .hash256 => some 32
  | _ => none

end Opcode

end NamedStack
