import NamedStack.Text.Quoted

/-!
# Layouts

A directive of a format says how a value is laid out: signs, padding, digits and quotes. A layout
holds these choices, and the functions here write an integer, a character, a text or a byte string
under it. Padding counts characters, a byte outside of any encoding as one.
-/

namespace NamedStack.Format

/-- How a value is laid out. -/
structure Layout where
  /-- Mark the base of a number, and prefer backquotes. -/
  sharp : Bool := false
  /-- Pad with zeros in front. -/
  zero : Bool := false
  /-- Give a sign to every number, and keep quoted texts in ASCII. -/
  plus : Bool := false
  /-- Pad behind instead of in front. -/
  minus : Bool := false
  /-- Leave room for a sign, and put spaces between the bytes of a byte string. -/
  space : Bool := false
  /-- Write the value as a program would have it. -/
  literal : Bool := false
  /-- The least number of characters. -/
  width : Option Nat := none
  /-- The least number of digits of a number, and the greatest number of items of a text. -/
  precision : Option Nat := none
  deriving DecidableEq, Repr

/-- Upper-case the letters of an ASCII text. -/
def upper (b : Bytes) : Bytes := b.map fun c => if 97 ≤ c ∧ c ≤ 122 then c - 32 else c

/-- The digits of a number in a base up to sixteen. -/
def digitsIn (base n : Nat) : Bytes := (Nat.toDigits base n).map fun c => UInt8.ofNat c.toNat

/-- Zeros in front of digits, up to a number of digits. -/
def zeros (n : Nat) (digits : Bytes) : Bytes := List.replicate (n - digits.length) 48 ++ digits

/-- The code point with a number, or the one that stands for what is no character. -/
def charOf (n : Int) : Nat :=
  if n < 0 ∨ 0x10FFFF < n ∨ 0xD800 ≤ n ∧ n ≤ 0xDFFF then 0xFFFD else n.toNat

/-- How the digits of an integer are chosen and marked. -/
inductive Base where
  | binary
  | octal
  /-- Octal digits behind a mark of their own. -/
  | markedOctal
  | decimal
  | hex
  /-- Hexadecimal digits in upper case. -/
  | upperHex
  deriving DecidableEq, Repr

namespace Base

/-- The digits of a number. -/
def digits : Base → Nat → Bytes
  | .binary, n => digitsIn 2 n
  | .octal, n | .markedOctal, n => digitsIn 8 n
  | .decimal, n => digitsIn 10 n
  | .hex, n => digitsIn 16 n
  | .upperHex, n => upper (digitsIn 16 n)

/-- The mark of the base in front of digits, where marks are wanted. -/
def mark (sharp : Bool) (digits : Bytes) : Base → Bytes
  | .binary => if sharp then text "0b" else []
  | .octal => octalMark
  | .markedOctal => text "0o" ++ octalMark
  | .decimal => []
  | .hex => if sharp then text "0x" else []
  | .upperHex => if sharp then text "0X" else []
where
  /-- A zero in front of octal digits that do not start with one. -/
  octalMark : Bytes := if sharp && digits.head? != some 48 then text "0" else []

end Base

namespace Layout

/-- The byte to pad with; zeros are never put behind. -/
def filler (l : Layout) : UInt8 := if l.zero && !l.minus then 48 else 32

/-- Pad a byte string to the width. -/
def pad (l : Layout) (b : Bytes) : Bytes :=
  let gap := List.replicate (l.width.getD 0 - (Text.runes b).length) l.filler
  if l.minus then b ++ gap else gap ++ b

/-- Pad a byte string to the width with spaces. -/
def padBlank (l : Layout) (b : Bytes) : Bytes := { l with zero := false }.pad b

/-- A text cut down to the number of characters that the precision allows. -/
def cut (l : Layout) (b : Bytes) : Bytes :=
  match l.precision with
  | none => b
  | some n => ((Text.runes b).take n).flatMap Text.Rune.bytes

/-- A text without quotes. -/
def plain (l : Layout) (b : Bytes) : Bytes := l.pad (l.cut b)

/-- A text between quotes. -/
def quoted (l : Layout) (b : Bytes) : Bytes :=
  if l.sharp && Text.canBackquote (l.cut b) then l.pad ([96] ++ l.cut b ++ [96])
  else l.pad (Text.quoteWith l.plus (l.cut b))

/-- The digits of the bytes of a byte string, marked once or, with spaces between the bytes, for
each byte. -/
def hexBytes (l : Layout) (isUpper : Bool) (b : Bytes) : Bytes :=
  let taken := match l.precision with
    | none => b
    | some n => b.take n
  let pairs := taken.map fun x => if isUpper then upper (Hex.pair x) else Hex.pair x
  let mark := if !l.sharp then [] else if isUpper then text "0X" else text "0x"
  if taken.isEmpty then l.pad []
  else if l.space then l.pad (Bytes.join (text " ") (pairs.map (mark ++ ·)))
  else l.pad (mark ++ pairs.flatten)

/-- The sign of an integer. -/
def sign (l : Layout) (n : Int) : Bytes :=
  if n < 0 then text "-" else if l.plus then text "+" else if l.space then text " " else []

/-- The least number of digits of an integer: the precision or, where zeros fill the width, what the
sign leaves of it. -/
def minDigits (l : Layout) (n : Int) : Nat :=
  match l.precision with
  | some p => p
  | none => if l.zero && !l.minus then l.width.getD 0 - (l.sign n).length else 0

/-- An integer in a base. A zero with no digits asked for is left blank. -/
def integer (l : Layout) (base : Base) (n : Int) : Bytes :=
  if l.precision = some 0 ∧ n = 0 then l.padBlank []
  else
    let digits := zeros (l.minDigits n) (base.digits n.natAbs)
    l.padBlank (l.sign n ++ base.mark l.sharp digits ++ digits)

/-- The character with a number. -/
def char (l : Layout) (n : Int) : Bytes := l.pad (Text.utf8 (charOf n))

/-- The character with a number, between single quotes. -/
def quotedChar (l : Layout) (n : Int) : Bytes :=
  l.pad ([39] ++ Text.escapeChar 39 l.plus (charOf n) ++ [39])

/-- A number as a code point in at least four digits, followed by the character itself if that is
wanted and it is printable. A negative number counts from the end of 64 bits. -/
def codePoint (l : Layout) (n : Int) : Bytes :=
  let c := (n % 18446744073709551616).toNat
  let digits := zeros (max 4 (l.precision.getD 0)) (upper (digitsIn 16 c))
  let shown := if l.sharp && Text.isPrintable c then text " '" ++ Text.utf8 c ++ text "'" else []
  l.padBlank (text "U+" ++ digits ++ shown)

end Layout

end NamedStack.Format
