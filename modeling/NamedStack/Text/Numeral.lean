import NamedStack.Text.Quoted

/-!
# Numbers and truth values written as text

Integers are decimal digits after an optional sign and have to fit in 64 bits with sign; truth
values have a fixed list of spellings. A text that cannot be read is reported with the reason and
the text itself, quoted.
-/

namespace NamedStack.Text

/-- Why a text is no number or truth value. -/
inductive NumeralError where
  /-- The text has a byte that does not belong there, or no digit at all. -/
  | invalid
  /-- The digits are fine, but the number does not fit. -/
  | outOfRange
  deriving DecidableEq, Repr

/-- The wording of the reason. -/
def NumeralError.message : NumeralError → Bytes
  | .invalid => text "invalid syntax"
  | .outOfRange => text "value out of range"

/-- The message for a text that could not be read by the named reader. -/
def numeralMessage (reader : String) (b : Bytes) (e : NumeralError) : Bytes :=
  text "strconv." ++ text reader ++ text ": parsing " ++ quote b ++ text ": " ++ e.message

/-- Read digits on top of a number read so far; what does not fit in 64 bits is out of range even if
a byte after it is no digit. -/
def readDigits (acc : Nat) : Bytes → Except NumeralError Nat
  | [] => .ok acc
  | c :: rest =>
    if 48 ≤ c ∧ c ≤ 57 then
      let acc := acc * 10 + (c.toNat - 48)
      if acc < 18446744073709551616 then readDigits acc rest else .error .outOfRange
    else .error .invalid

/-- Read the digits of a natural number below `2 ^ 64`. -/
def readNat (b : Bytes) : Except NumeralError Nat :=
  if b.isEmpty then .error .invalid else readDigits 0 b

/-- Read an integer of 64 bits with sign. -/
def readInt (b : Bytes) : Except NumeralError Int :=
  match b with
  | 45 :: digits => do
    let n ← readNat digits
    if n ≤ 9223372036854775808 then return -n else .error .outOfRange
  | 43 :: digits => do nonNegative digits
  | digits => do nonNegative digits
where
  /-- Read the digits of an integer that is not negative. -/
  nonNegative (digits : Bytes) : Except NumeralError Int := do
    let n ← readNat digits
    if n < 9223372036854775808 then return n else .error .outOfRange

/-- Read a truth value. -/
def readBool (b : Bytes) : Except NumeralError Bool :=
  if (["1", "t", "T", "TRUE", "true", "True"].map text).contains b then .ok true
  else if (["0", "f", "F", "FALSE", "false", "False"].map text).contains b then .ok false
  else .error .invalid

end NamedStack.Text
