import NamedStack.Format.Layout

/-!
# The parts of a format

A format is a text with directives. A directive starts with a percent sign; then come flags, a
width, a precision behind a point, and a letter. Width and precision are digits, or a star that
stands for an argument. In front of a star and in front of the letter the number of the argument can
be given between square brackets. How a format is cut into parts depends on its text alone.
-/

namespace NamedStack.Format

/-- The number of an argument between square brackets. -/
inductive Choice where
  /-- No brackets. -/
  | none
  /-- Brackets with something else than a number, or an opening bracket alone. -/
  | malformed
  /-- The number of an argument, the first one being 1. -/
  | argument (n : Nat)
  deriving DecidableEq, Repr

/-- A width or a precision. -/
inductive Amount where
  | none
  /-- Digits. -/
  | number (n : Nat)
  /-- A star, for an integer among the arguments. -/
  | star
  deriving DecidableEq, Repr

/-- One directive. -/
structure Directive where
  /-- The flags, in a layout without width and precision. -/
  flags : Layout
  /-- The argument chosen in front of the width. -/
  first : Choice
  width : Amount
  /-- What comes behind a point: the argument chosen and the precision. -/
  point : Option (Choice × Amount)
  /-- The argument chosen in front of the letter. -/
  last : Choice
  /-- The letter; none if the format ends before it. -/
  letter : Option Char
  deriving DecidableEq, Repr

/-- A part of a format. -/
inductive Part where
  /-- A byte that stands for itself. -/
  | byte (b : UInt8)
  | directive (d : Directive)
  deriving DecidableEq, Repr

/-- Whether a byte is a flag. -/
def isFlag (b : UInt8) : Bool := b = 35 || b = 48 || b = 43 || b = 45 || b = 32

/-- The layout that flags stand for. -/
def flagLayout (b : Bytes) : Layout where
  sharp := b.contains 35
  zero := b.contains 48
  plus := b.contains 43
  minus := b.contains 45
  space := b.contains 32

/-- Whether a byte is a decimal digit. -/
def isDigit (b : UInt8) : Bool := 48 ≤ b && b ≤ 57

/-- The number that decimal digits stand for. -/
def number (digits : Bytes) : Nat := digits.foldl (fun n c => n * 10 + (c.toNat - 48)) 0

/-- The number that digits stand for, if there are any and the number is not far out of use: without
its last digit it is at most a million. -/
def usable? (digits : Bytes) : Option Nat :=
  if digits.isEmpty || 1000000 < number digits.dropLast then none else some (number digits)

/-- Read the choice of an argument. Brackets that are not closed are just an opening bracket, and so
are empty ones at the end. -/
def readChoice (b : Bytes) : Choice × Bytes :=
  match b with
  | 91 :: rest =>
    if rest.length < 2 || !rest.contains 93 then (.malformed, rest)
    else
      let content := rest.takeWhile (· != 93)
      let left := rest.drop (content.length + 1)
      match usable? content with
      | some n => if content.all isDigit then (.argument n, left) else (.malformed, left)
      | none => (.malformed, left)
  | b => (.none, b)

/-- Read a width or a precision. Nothing is read behind a number that is far out of use. -/
def readAmount (b : Bytes) : Amount × Bytes :=
  match b with
  | 42 :: rest => (.star, rest)
  | b =>
    let digits := b.takeWhile isDigit
    match usable? digits with
    | some n => (.number n, b.drop digits.length)
    | none => (.none, if digits.isEmpty then b else [])

/-- Read a point and what comes behind it. -/
def readPoint (b : Bytes) : Option (Choice × Amount) × Bytes :=
  match b with
  | 46 :: rest =>
    (some ((readChoice rest).1, (readAmount (readChoice rest).2).1),
      (readAmount (readChoice rest).2).2)
  | b => (none, b)

/-- Whether an argument is chosen and the choice was not used up by a star. -/
def isPending : Choice → Amount → Bool
  | .argument _, .star => false
  | .argument _, _ => true
  | _, _ => false

/-- Read the choice in front of the letter, unless one is pending. -/
def readLast (pending : Bool) (b : Bytes) : Choice × Bytes :=
  if pending then (.none, b) else readChoice b

/-- Read the letter, a whole character. -/
def readLetter : Bytes → Option Char × Bytes
  | [] => (none, [])
  | a :: rest =>
    match Text.frontRune a rest with
    | (.char c, n) => (some (Char.ofNat c), rest.drop n)
    | (.stray _, n) => (some (Char.ofNat 0xFFFD), rest.drop n)

namespace Directive

/-- Whether a choice is pending when the letter is reached. -/
def pendingAt (first : Choice) (width : Amount) : Option (Choice × Amount) → Bool
  | none => isPending first width
  | some (choice, precision) => isPending choice precision

/-- Read what comes behind a percent sign, up to the letter. -/
def read (b : Bytes) : Directive × Bytes :=
  let first := readChoice (b.dropWhile isFlag)
  let width := readAmount first.2
  let point := readPoint width.2
  let last := readLast (pendingAt first.1 width.1 point.1) point.2
  let letter := readLetter last.2
  ({ flags := flagLayout (b.takeWhile isFlag), first := first.1, width := width.1,
     point := point.1, last := last.1, letter := letter.1 }, letter.2)

end Directive

/-- Reading a choice leaves no more than there was. -/
theorem length_readChoice (b : Bytes) : (readChoice b).2.length ≤ b.length := by
  unfold readChoice
  split
  · split
    · simp
    · dsimp only
      repeat' split
      all_goals simp only [List.length_drop, List.length_cons]; omega
  · exact Nat.le_refl _

/-- Reading a width or a precision leaves no more than there was. -/
theorem length_readAmount (b : Bytes) : (readAmount b).2.length ≤ b.length := by
  unfold readAmount
  split
  · simp
  · dsimp only
    split
    · simp
    · split <;> simp

/-- Reading a point leaves no more than there was. -/
theorem length_readPoint (b : Bytes) : (readPoint b).2.length ≤ b.length := by
  unfold readPoint
  split
  · rename_i rest
    have h := Nat.le_trans (length_readAmount (readChoice rest).2) (length_readChoice rest)
    exact Nat.le_succ_of_le h
  · exact Nat.le_refl _

/-- Reading the last choice leaves no more than there was. -/
theorem length_readLast (pending : Bool) (b : Bytes) :
    (readLast pending b).2.length ≤ b.length := by
  unfold readLast
  split
  · exact Nat.le_refl _
  · exact length_readChoice b

/-- Reading a letter leaves no more than there was. -/
theorem length_readLetter (b : Bytes) : (readLetter b).2.length ≤ b.length := by
  unfold readLetter
  split
  · exact Nat.le_refl _
  · split <;> simp only [List.length_drop, List.length_cons] <;> omega

/-- Reading a directive leaves no more than there was. -/
theorem length_readDirective (b : Bytes) : (Directive.read b).2.length ≤ b.length := by
  have hflags : (b.dropWhile isFlag).length ≤ b.length := (List.dropWhile_suffix _).length_le
  simp only [Directive.read]
  refine Nat.le_trans (length_readLetter _) (Nat.le_trans (length_readLast _ _) ?_)
  refine Nat.le_trans (length_readPoint _) (Nat.le_trans (length_readAmount _) ?_)
  exact Nat.le_trans (length_readChoice _) hflags

/-- The parts of a format. -/
def parts : Bytes → List Part
  | [] => []
  | b :: rest =>
    if b = 37 then .directive (Directive.read rest).1 :: parts (Directive.read rest).2
    else .byte b :: parts rest
termination_by b => b.length
decreasing_by
  · have := length_readDirective rest
    simp only [List.length_cons]
    omega
  · simp

end NamedStack.Format
