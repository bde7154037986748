import NamedStack.Format.Directive
import NamedStack.Format.Value

/-!
# Filling a format

The directives of a format take the arguments in order, or from where an explicit number says. What
goes wrong shows in the result: a directive without an argument, a number that is no argument, a
star for something that is no integer in use, and arguments that are left over. Arguments left over
are shown only if none was chosen by number.
-/

namespace NamedStack.Format

/-- Which argument comes next. -/
structure Cursor where
  /-- The number of arguments in front of it. -/
  next : Nat := 0
  /-- Whether the choices of the current directive are in order. -/
  good : Bool := true
  /-- Whether any argument was chosen by number. -/
  chosen : Bool := false
  deriving DecidableEq, Repr

namespace Cursor

/-- Follow the choice of an argument. -/
def choose (c : Cursor) (args : List Scalar) : Choice → Cursor
  | .none => c
  | .malformed => { c with good := false, chosen := true }
  | .argument n =>
    if 1 ≤ n ∧ n ≤ args.length then { c with next := n - 1, chosen := true }
    else { c with good := false, chosen := true }

/-- A choice that is followed by something it does not belong to. -/
def reject (c : Cursor) (isWrong : Bool) : Cursor := { c with good := c.good && !isWrong }

/-- The integer that a width or a precision stands for; an argument for it is used up. -/
def amount (c : Cursor) (args : List Scalar) : Amount → Option Int × Cursor
  | .none => (none, c)
  | .number n => (some n, c)
  | .star =>
    match args[c.next]? with
    | none => (none, c)
    | some (.int n) => (if n.natAbs ≤ 1000000 then some n else none, { c with next := c.next + 1 })
    | some _ => (none, { c with next := c.next + 1 })

end Cursor

/-- A layout with a width; a negative one asks for padding behind. -/
def withWidth (l : Layout) : Option Int → Layout
  | none => l
  | some w => { l with width := some w.natAbs, minus := l.minus || w < 0 }

/-- The precision that a directive asks for; there is none below zero. -/
def precisionOf : Option Int → Option Nat
  | some (.ofNat n) => some n
  | _ => none

/-- The layout for the letters that write a value in its default form. -/
def forLetter (l : Layout) (letter : Char) : Layout :=
  if letter = 'v' ∨ letter = 'w' then { l with literal := l.sharp, sharp := false, plus := false }
  else l

/-- The text at the letter of a directive, and the cursor after it. -/
def atLetter (l : Layout) (args : List Scalar) (c : Cursor) : Option Char → Bytes × Cursor
  | none => (text "%!(NOVERB)", c)
  | some '%' => (text "%", c)
  | some letter =>
    if !c.good then (mismatch letter (text "BADINDEX"), c)
    else match args[c.next]? with
      | none => (mismatch letter (text "MISSING"), c)
      | some v => (value (forLetter l letter) letter v, { c with next := c.next + 1 })

/-- What is written for a star without an integer. -/
def complaint (a : Amount) (found : Bool) (b : Bytes) : Bytes :=
  if a = .star ∧ found = false then b else []

/-- The layout after the point of a directive, with the text for a precision that is missing. -/
def atPoint (l : Layout) (args : List Scalar) (c : Cursor) :
    Option (Choice × Amount) → Layout × Bytes × Cursor
  | none => (l, [], c)
  | some (choice, amount) =>
    let (n, c) := (c.choose args choice).amount args amount
    let precision := precisionOf n
    ({ l with precision := if amount = .star then precision else some (precision.getD 0) },
      complaint amount precision.isSome (text "%!(BADPREC)"), c)

/-- The text of a directive, and the cursor after it. -/
def Directive.fill (d : Directive) (args : List Scalar) (c : Cursor) : Bytes × Cursor :=
  let c := { c with good := true }.choose args d.first
  let (w, c) := c.amount args d.width
  let pending := isPending d.first d.width
  let c := c.reject (pending && (d.width != .none || d.point.isSome))
  let (l, badPrecision, c) := atPoint (withWidth d.flags w) args c d.point
  let (b, c) := atLetter l args (c.choose args d.last) d.letter
  (complaint d.width w.isSome (text "%!(BADWIDTH)") ++ badPrecision ++ b, c)

/-- What is written for the arguments that are left over. -/
def leftOver (args : List Scalar) (c : Cursor) : Bytes :=
  if c.chosen || args.length ≤ c.next then []
  else text "%!(EXTRA " ++ Bytes.join (text ", ") ((args.drop c.next).map (typed {})) ++ text ")"

/-- The text of the parts of a format. -/
def fillParts (args : List Scalar) (c : Cursor) : List Part → Bytes
  | [] => leftOver args c
  | .byte b :: rest => b :: fillParts args c rest
  | .directive d :: rest => (d.fill args c).1 ++ fillParts args (d.fill args c).2 rest

/-- A format with its directives replaced by the arguments. -/
def fill (format : Bytes) (args : List Scalar) : Bytes := fillParts args {} (parts format)

end NamedStack.Format
