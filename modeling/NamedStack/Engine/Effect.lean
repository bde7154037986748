import NamedStack.Hash.Opcode

/-!
# What opcodes do to the stack

The items of a stack are byte strings, the top one first. An opcode takes its operands from the top
and puts its results back; without the operands it needs, or with an operand that is no number, it
has no result. Numbers are read from at most four bytes and are written in their shortest form,
which may be longer.
-/

namespace NamedStack.Engine

/-- A stack of byte strings, the top one first. -/
abbrev Stack := List Bytes

/-- Whether an item counts as true: some byte is not zero, apart from a lone sign bit at the end. -/
def isTrue : Bytes → Bool
  | [] => false
  | [b] => b != 0 && b != 0x80
  | b :: rest => b != 0 || isTrue rest

/-- The item for a truth value. -/
def ofBool (b : Bool) : Bytes := if b then [1] else []

/-- The number for a truth value. -/
def bit (b : Bool) : Int := if b then 1 else 0

/-- Arithmetic on one number. -/
def unary : UnaryOp → Int → Int
  | .add1, x => x + 1
  | .sub1, x => x - 1
  | .negate, x => -x
  | .abs, x => x.natAbs
  | .not, x => bit (x = 0)
  | .notZero, x => bit (x ≠ 0)

/-- Arithmetic on two numbers, the second one from the top of the stack. -/
def binary : BinaryOp → Int → Int → Int
  | .add, x, y => x + y
  | .sub, x, y => x - y
  | .boolAnd, x, y => bit (x ≠ 0 ∧ y ≠ 0)
  | .boolOr, x, y => bit (x ≠ 0 ∨ y ≠ 0)
  | .numEqual, x, y => bit (x = y)
  | .numNotEqual, x, y => bit (x ≠ y)
  | .lessThan, x, y => bit (x < y)
  | .greaterThan, x, y => bit (x > y)
  | .lessOrEqual, x, y => bit (x ≤ y)
  | .greaterOrEqual, x, y => bit (x ≥ y)
  | .min, x, y => min x y
  | .max, x, y => max x y

/-- Put the result of a function of one number in its place. -/
def onNumber (f : Int → Int) : Stack → Option Stack
  | a :: s => (ScriptNum.read? a).map fun x => ScriptNum.ofInt (f x) :: s
  | [] => none

/-- Put the result of a function of two numbers in their place. -/
def onNumbers (f : Int → Int → Int) : Stack → Option Stack
  | b :: a :: s =>
    match ScriptNum.read? a, ScriptNum.read? b with
    | some x, some y => some (ScriptNum.ofInt (f x y) :: s)
    | _, _ => none
  | _ => none

/-- Take a number off the top and act on what is below. -/
def withNumber (f : Int → Stack → Option Stack) : Stack → Option Stack
  | a :: s => (ScriptNum.read? a).bind fun n => f n s
  | [] => none

/-- Take the top item off, which has to be true. -/
def verify : Stack → Option Stack
  | a :: s => if isTrue a then some s else none
  | [] => none

/-- Copy the item at a position to the top. -/
def pick (n : Int) (s : Stack) : Option Stack :=
  if n < 0 then none else s[n.toNat]?.map (· :: s)

/-- Move the item at a position to the top. -/
def roll (n : Int) (s : Stack) : Option Stack :=
  if n < 0 then none else s[n.toNat]?.map (· :: s.eraseIdx n.toNat)

/-- Whether a signature is valid for a key, by the operands alone. -/
abbrev Checker := Bytes → Bytes → Bool

/-- The checker that accepts no signature. -/
def Checker.none : Checker := fun _ _ => false

/-- Whether a signature that is not empty is valid for a key. -/
def Checker.accepts (valid : Checker) (sig key : Bytes) : Bool := !sig.isEmpty && valid sig key

/-- Whether every signature is valid for a key of its own, in the order of the keys. -/
def Checker.acceptsAll (valid : Checker) : List Bytes → List Bytes → Bool
  | [], _ => true
  | _ :: _, [] => false
  | sig :: sigs, key :: keys =>
    if valid.accepts sig key then valid.acceptsAll sigs keys
    else valid.acceptsAll (sig :: sigs) keys

/-- The operands of a check of several signatures. -/
structure MultisigCheck where
  keys : List Bytes
  sigs : List Bytes
  /-- What is below the operands. -/
  rest : Stack

/-- The most keys that one check may have. -/
def maxKeys : Nat := 20

/-- A count on top of the stack that is at most a limit, with as many items as it says. -/
def counted (limit : Nat) : Stack → Option (List Bytes × Stack)
  | a :: s =>
    match ScriptNum.read? a with
    | some n =>
      if 0 ≤ n ∧ n ≤ limit ∧ n ≤ s.length then some (s.take n.toNat, s.drop n.toNat) else none
    | none => none
  | [] => none

/-- Take the operands of a check of several signatures: a count of keys and the keys, a count of
signatures, no more than there are keys, and the signatures, and one item that is not used. -/
def multisig (s : Stack) : Option MultisigCheck :=
  match counted maxKeys s with
  | none => none
  | some (keys, s) =>
    match counted keys.length s with
    | some (sigs, _ :: rest) => some { keys, sigs, rest }
    | _ => none

/-- Check several signatures, and put the result in the place of the operands. -/
def checkMultisig (valid : Checker) (s : Stack) : Option Stack :=
  (multisig s).map fun m => ofBool (valid.acceptsAll m.sigs m.keys) :: m.rest

/-- Check one signature, and put the result in the place of the operands. -/
def checkSig (valid : Checker) : Stack → Option Stack
  | key :: sig :: s => some (ofBool (valid.accepts sig key) :: s)
  | _ => none

/-- Compare two items, and put the result in their place. -/
def equal : Stack → Option Stack
  | b :: a :: s => some (ofBool (a = b) :: s)
  | _ => none

/-- Whether a number is at least the second and less than the first operand from the top. -/
def within : Stack → Option Stack
  | c :: b :: a :: s =>
    match ScriptNum.read? a, ScriptNum.read? b, ScriptNum.read? c with
    | some x, some lo, some hi => some (ScriptNum.ofInt (bit (lo ≤ x ∧ x < hi)) :: s)
    | _, _, _ => none
  | _ => none

/-- Rearrangements and copies of items. -/
def shuffle : Opcode → Stack → Option Stack
  | .drop, _ :: s => some s
  | .drop2, _ :: _ :: s => some s
  | .dup, a :: s => some (a :: a :: s)
  | .dup2, b :: a :: s => some (b :: a :: b :: a :: s)
  | .dup3, c :: b :: a :: s => some (c :: b :: a :: c :: b :: a :: s)
  | .nip, b :: _ :: s => some (b :: s)
  | .over, b :: a :: s => some (a :: b :: a :: s)
  | .over2, d :: c :: b :: a :: s => some (b :: a :: d :: c :: b :: a :: s)
  | .rot, c :: b :: a :: s => some (a :: c :: b :: s)
  | .rot2, f :: e :: d :: c :: b :: a :: s => some (b :: a :: f :: e :: d :: c :: s)
  | .swap, b :: a :: s => some (a :: b :: s)
  | .swap2, d :: c :: b :: a :: s => some (b :: a :: d :: c :: s)
  | .tuck, b :: a :: s => some (b :: a :: b :: s)
  | .ifDup, a :: s => some (if isTrue a then a :: a :: s else a :: s)
  | _, _ => none

/-- What an opcode does to the main stack alone. The conditionals, the moves to and from the other
stack and the opcodes that end a script have no effect of this kind. -/
def effect (valid : Checker) (o : Opcode) (s : Stack) : Option Stack :=
  match o with
  | .small n => some (ScriptNum.ofInt n.val :: s)
  | .nop | .codeSeparator | .checkLockTimeVerify | .checkSequenceVerify | .reserved _ => some s
  | .verify => verify s
  | .depth => some (ScriptNum.ofInt s.length :: s)
  | .size => s.head?.map fun a => ScriptNum.ofInt a.length :: s
  | .pick => withNumber pick s
  | .roll => withNumber roll s
  | .equal => equal s
  | .equalVerify => (equal s).bind verify
  | .unary u => onNumber (unary u) s
  | .binary b => onNumbers (binary b) s
  | .numEqualVerify => (onNumbers (binary .numEqual) s).bind verify
  | .within => within s
  | .hash h => s.head?.map fun a => h.apply a :: s.tail
  | .checkSig => checkSig valid s
  | .checkSigVerify => (checkSig valid s).bind verify
  | .checkMultiSig => checkMultisig valid s
  | .checkMultiSigVerify => (checkMultisig valid s).bind verify
  | .opIf | .opNotIf | .opElse | .opEndIf | .opReturn | .toAltStack | .fromAltStack
  | .disabled _ => none
  | .drop | .drop2 | .dup | .dup2 | .dup3 | .nip | .over | .over2 | .rot | .rot2 | .swap | .swap2
  | .tuck | .ifDup => shuffle o s

end NamedStack.Engine
