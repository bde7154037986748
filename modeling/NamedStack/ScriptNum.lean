import NamedStack.Failure

/-!
# Script numbers

Integers on the stack are little-endian digits in base 256 with a sign bit on top of the last one;
zero is the empty byte string. Writing gives the shortest form. Reading takes any form, in words of
64 bits: each byte is placed by a shift whose amount is kept modulo 256, and a shift by 64 or more
leaves nothing.
-/

namespace NamedStack.ScriptNum

/-- The most bytes that a pushed value may have to be taken for a number. -/
def maxLen : Nat := 4

/-- The little-endian digits of a natural number, without a zero digit at the end. -/
def digits (n : Nat) : Bytes :=
  if n = 0 then [] else UInt8.ofNat n :: digits (n / 256)
termination_by n

/-- The sign as a byte of its own. -/
def signByte (negative : Bool) : UInt8 := if negative then 0x80 else 0

/-- Put the sign on top of the digits: into the last digit if its high bit is free, else behind. -/
def withSign (negative : Bool) (ds : Bytes) : Bytes :=
  match ds.getLast? with
  | none => []
  | some top =>
    if top &&& 0x80 = 0 then ds.dropLast ++ [top ||| signByte negative]
    else ds ++ [signByte negative]

/-- The shortest form of an integer. -/
def ofInt (n : Int) : Bytes := withSign (n < 0) (digits n.natAbs)

/-- The shortest form of a 64-bit integer; the least one has none, since its magnitude does not fit
in 64 bits with sign. -/
def encode (n : Int) : Except Fault Bytes :=
  if n = -9223372036854775808 then .error .outOfRange else .ok (ofInt n)

/-- Whether a byte string is the shortest form of its value. -/
def isMinimal (v : Bytes) : Bool :=
  match v.reverse with
  | [] => true
  | [top] => top &&& 0x7F != 0
  | top :: next :: _ => top &&& 0x7F != 0 || next &&& 0x80 != 0

/-- A byte placed at its position in a 64-bit word. -/
def place (b : UInt8) (position : Nat) : UInt64 :=
  let shift := 8 * position % 256
  if shift < 64 then b.toUInt64 <<< shift.toUInt64 else 0

/-- The bytes from a position on, placed in one word. -/
def bits (position : Nat) : Bytes → UInt64
  | [] => 0
  | b :: rest => place b position ||| bits (position + 1) rest

/-- The number that a byte string stands for, in 64 bits with sign. -/
def decode (v : Bytes) : Int64 :=
  match v.getLast? with
  | none => 0
  | some top =>
    if top &&& 0x80 = 0 then (bits 0 v).toInt64
    else -(bits 0 v &&& ~~~ place 0x80 (v.length - 1)).toInt64

/-- Read a number of at most `limit` bytes, in its shortest form only if that is required. -/
def parse (v : Bytes) (minimal : Bool) (limit : Int) : Except Cause Int :=
  if limit < v.length then .error (.numTooBig v.length limit)
  else if minimal && !isMinimal v then .error (.numNotMinimal v)
  else .ok (decode v).toInt

/-- The number in a pushed value that is short enough to be taken for one. -/
def read? (v : Bytes) : Option Int := (parse v false maxLen).toOption

end NamedStack.ScriptNum
