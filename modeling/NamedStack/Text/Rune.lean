import NamedStack.Bytes

/-!
# Characters of a byte string

A byte string is read as UTF-8 one character after another. A byte that starts no valid encoding is
an item of its own, so nothing is lost: writing the items back gives the byte string.
-/

namespace NamedStack.Text

/-- One item of a byte string: a character, or a byte that starts no valid encoding. -/
inductive Rune where
  /-- A code point in a valid encoding. -/
  | char (code : Nat)
  /-- A byte outside of any valid encoding. -/
  | stray (byte : UInt8)
  deriving DecidableEq, Repr

/-- The six payload bits of a continuation byte. -/
def continuation? (b : UInt8) : Option Nat :=
  if 0x80 ≤ b ∧ b ≤ 0xBF then some (b.toNat - 0x80) else none

/-- The UTF-8 encoding of a code point. -/
def utf8 (c : Nat) : Bytes :=
  if c < 0x80 then [UInt8.ofNat c]
  else if c < 0x800 then [UInt8.ofNat (0xC0 + c / 64), UInt8.ofNat (0x80 + c % 64)]
  else if c < 0x10000 then
    [UInt8.ofNat (0xE0 + c / 4096), UInt8.ofNat (0x80 + c / 64 % 64), UInt8.ofNat (0x80 + c % 64)]
  else
    [UInt8.ofNat (0xF0 + c / 262144), UInt8.ofNat (0x80 + c / 4096 % 64),
      UInt8.ofNat (0x80 + c / 64 % 64), UInt8.ofNat (0x80 + c % 64)]

/-- The code point that a lead byte of a longer encoding and the bytes after it stand for, with the
number of bytes after the lead; shortest encodings only, and no surrogates. -/
def multibyte? (lead : UInt8) (rest : Bytes) : Option (Nat × Nat) :=
  if 0xC2 ≤ lead ∧ lead ≤ 0xDF then do
    let a ← rest[0]? >>= continuation?
    return ((lead.toNat - 0xC0) * 64 + a, 1)
  else if 0xE0 ≤ lead ∧ lead ≤ 0xEF then do
    let a ← rest[0]? >>= continuation?
    let b ← rest[1]? >>= continuation?
    let c := (lead.toNat - 0xE0) * 4096 + a * 64 + b
    if c < 0x800 ∨ 0xD800 ≤ c ∧ c ≤ 0xDFFF then none else return (c, 2)
  else if 0xF0 ≤ lead ∧ lead ≤ 0xF4 then do
    let a ← rest[0]? >>= continuation?
    let b ← rest[1]? >>= continuation?
    let d ← rest[2]? >>= continuation?
    let c := (lead.toNat - 0xF0) * 262144 + a * 4096 + b * 64 + d
    if c < 0x10000 ∨ 0x10FFFF < c then none else return (c, 3)
  else none

/-- The item at the front of a byte string and the number of bytes it takes after the first. -/
def frontRune (a : UInt8) (rest : Bytes) : Rune × Nat :=
  if a < 0x80 then (.char a.toNat, 0)
  else match multibyte? a rest with
    | some (c, n) => (.char c, n)
    | none => (.stray a, 0)

/-- The items of a byte string, in order. -/
def runes : Bytes → List Rune
  | [] => []
  | a :: rest => (frontRune a rest).1 :: runes (rest.drop (frontRune a rest).2)
termination_by b => b.length
decreasing_by simp only [List.length_drop, List.length_cons]; omega

/-- The bytes of an item. -/
def Rune.bytes : Rune → Bytes
  | .char c => utf8 c
  | .stray b => [b]

/-- The byte string as a text, with the replacement character for each byte outside of an
encoding. -/
def display (b : Bytes) : String :=
  String.ofList <| (runes b).map fun
    | .char c => Char.ofNat c
    | .stray _ => Char.ofNat 0xFFFD

end NamedStack.Text
