/-!
# Byte strings

Program text, names, literals, scripts and messages are all byte strings: a program may hold bytes
that are no valid text, and they have to come through unchanged. A byte string is the list of its
bytes, which is also the view that the laws speak about. The module ends with hexadecimal text:
writing it, and reading it with the reason why it cannot be read.
-/

namespace NamedStack

/-- A byte string. -/
abbrev Bytes := List UInt8

/-- The name of a value, a parameter or a function. -/
abbrev Name := Bytes

/-- The bytes of a text, in UTF-8. -/
def text (s : String) : Bytes := s.toByteArray.data.toList

namespace Bytes

/-- The decimal digits of a natural number. -/
def ofNat (n : Nat) : Bytes := text (toString n)

/-- The decimal digits of an integer, with a sign in front of a negative one. -/
def ofInt (n : Int) : Bytes :=
  match n with
  | .ofNat n => ofNat n
  | .negSucc n => 45 :: ofNat (n + 1)

/-- Byte strings one after another, with a separator between two of them. -/
def join (sep : Bytes) : List Bytes → Bytes
  | [] => []
  | [b] => b
  | b :: rest => b ++ sep ++ join sep rest

/-- The parts of a byte string between the bytes that equal a separator. -/
def splitOn (sep : UInt8) : Bytes → List Bytes
  | [] => [[]]
  | b :: rest =>
    if b = sep then [] :: splitOn sep rest
    else match splitOn sep rest with
      | [] => [[b]]
      | part :: parts => (b :: part) :: parts

/-- The byte string without a given front, if it starts with it. -/
def dropFront? (front : Bytes) (b : Bytes) : Option Bytes :=
  if front.isPrefixOf b then some (b.drop front.length) else none

/-- The first `n` little-endian digits of a number in base 256. -/
def littleEndian : Nat → Nat → Bytes
  | 0, _ => []
  | n + 1, v => UInt8.ofNat v :: littleEndian n (v / 256)

/-- The number that little-endian digits in base 256 stand for. -/
def toNatLE : Bytes → Nat
  | [] => 0
  | b :: rest => b.toNat + 256 * toNatLE rest

/-- The number that big-endian digits in base 256 stand for. -/
def toNatBE (b : Bytes) : Nat := toNatLE b.reverse

/-- Order by the first byte that differs; a front comes before what it is a front of. -/
def le : Bytes → Bytes → Bool
  | [], _ => true
  | _ :: _, [] => false
  | a :: as, b :: bs => if a < b then true else if b < a then false else le as bs

/-- Sort names, each kept as often as it occurs. -/
def sort (names : List Bytes) : List Bytes := names.mergeSort le

/-- The little-endian digits have the length asked for. -/
theorem length_littleEndian (n v : Nat) : (littleEndian n v).length = n := by
  induction n generalizing v with
  | zero => rfl
  | succ n ih => simp [littleEndian, ih]

end Bytes

namespace Hex

/-- Why a text is no hexadecimal byte string. -/
inductive Error where
  /-- The byte is no hexadecimal digit. -/
  | invalid (byte : UInt8)
  /-- The last digit has no partner. -/
  | oddLength
  deriving DecidableEq, Repr

/-- The lower-case digit of a value below sixteen. -/
def digit (n : Nat) : UInt8 := if n < 10 then 48 + UInt8.ofNat n else 87 + UInt8.ofNat n

/-- The value of a digit of either case. -/
def value? (c : UInt8) : Option Nat :=
  if 48 ≤ c ∧ c ≤ 57 then some (c.toNat - 48)
  else if 97 ≤ c ∧ c ≤ 102 then some (c.toNat - 87)
  else if 65 ≤ c ∧ c ≤ 70 then some (c.toNat - 55)
  else none

/-- The two digits of a byte, high half first. -/
def pair (b : UInt8) : Bytes := [digit (b.toNat / 16), digit (b.toNat % 16)]

/-- Write a byte string with two lower-case digits a byte. -/
def encode (b : Bytes) : Bytes := b.flatMap pair

/-- Read digits of either case in pairs; the first byte that is no digit is reported, and a digit
left over only when every pair could be read. -/
def decode : Bytes → Except Error Bytes
  | [] => .ok []
  | [c] => .error (if (value? c).isNone then .invalid c else .oddLength)
  | c :: d :: rest =>
    match value? c, value? d with
    | none, _ => .error (.invalid c)
    | some _, none => .error (.invalid d)
    | some hi, some lo => (decode rest).map (UInt8.ofNat (16 * hi + lo) :: ·)

/-- The digit of a value below sixteen reads back as that value. -/
theorem value?_digit : ∀ n < 16, value? (digit n) = some n := by decide

/-- Reading what was written gives the byte string back. -/
theorem decode_encode (b : Bytes) : decode (encode b) = .ok b := by
  induction b with
  | nil => rfl
  | cons x rest ih =>
    have hx : x.toNat < 256 := x.toNat_lt
    have hi := value?_digit (x.toNat / 16) (by omega)
    have lo := value?_digit (x.toNat % 16) (by omega)
    have hv : 16 * (x.toNat / 16) + x.toNat % 16 = x.toNat := by omega
    simp only [encode, List.flatMap_cons, pair, List.cons_append, List.nil_append]
    simp only [decode, hi, lo, hv, UInt8.ofNat_toNat]
    rw [show List.flatMap pair rest = encode rest from rfl, ih]
    rfl

end Hex

end NamedStack
