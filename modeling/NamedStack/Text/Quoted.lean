import NamedStack.Text.Printable
import NamedStack.Text.Rune

/-!
# Quoted texts

A text between double quotes. Quotes and backslashes are escaped, printable characters stand as
they are, the usual control characters have their letter, and all else is written as a number: two
digits for a control character or a stray byte, four or eight for a code point. Between backquotes
a text stands as it is, if it has nothing that would need an escape.
-/

namespace NamedStack.Text

/-- The `n` lowest hexadecimal digits of a number. -/
def hexDigits : Nat → Nat → Bytes
  | 0, _ => []
  | n + 1, v => hexDigits n (v / 16) ++ [Hex.digit (v % 16)]

/-- The letter that stands for a control character after a backslash. -/
def controlLetter? (c : Nat) : Option UInt8 :=
  [(7, 97), (8, 98), (12, 102), (10, 110), (13, 114), (9, 116), (11, 118)].lookup c

/-- A character inside of quotes; where only ASCII may stand as it is, all else is a number. -/
def escapeChar (quoteMark : Nat) (asciiOnly : Bool) (c : Nat) : Bytes :=
  if c = quoteMark ∨ c = 92 then [92, UInt8.ofNat c]
  else if isPrintable c && (!asciiOnly || c < 128) then utf8 c
  else match controlLetter? c with
    | some letter => [92, letter]
    | none =>
      if c < 32 ∨ c = 127 then text "\\x" ++ hexDigits 2 c
      else if c < 0x10000 then text "\\u" ++ hexDigits 4 c
      else text "\\U" ++ hexDigits 8 c

/-- An item of a byte string inside of double quotes. -/
def escape (asciiOnly : Bool) : Rune → Bytes
  | .char c => escapeChar 34 asciiOnly c
  | .stray b => text "\\x" ++ hexDigits 2 b.toNat

/-- The byte string between double quotes. -/
def quoteWith (asciiOnly : Bool) (b : Bytes) : Bytes :=
  [34] ++ (runes b).flatMap (escape asciiOnly) ++ [34]

/-- The byte string between double quotes, printable characters as they are. -/
def quote (b : Bytes) : Bytes := quoteWith false b

/-- Whether an item can stand between backquotes, where nothing is escaped. -/
def isRaw : Rune → Bool
  | .char c => (32 ≤ c || c = 9) && c ≠ 96 && c ≠ 127 && c ≠ 0xFEFF
  | .stray _ => false

/-- Whether a byte string can be written between backquotes. -/
def canBackquote (b : Bytes) : Bool := (runes b).all isRaw

/-- The name of a byte taken as a code point: its number, and the character itself where it is
printable. -/
def codePoint (b : UInt8) : Bytes :=
  text "U+" ++ (hexDigits 4 b.toNat).map upper ++
    if isPrintable b.toNat then text " '" ++ utf8 b.toNat ++ text "'" else []
where
  /-- The upper-case form of a hexadecimal digit. -/
  upper (c : UInt8) : UInt8 := if 97 ≤ c ∧ c ≤ 122 then c - 32 else c

end NamedStack.Text
