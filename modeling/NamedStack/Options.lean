/-!
# Options of the compiler
-/

namespace NamedStack

/-- What the compiler does beyond what it always does. -/
structure Options where
  /-- Accept comparisons of a hash with a literal of another size. -/
  allowInvalidComparisons : Bool := false
  /-- Route items of the initial stack that are read after an uneven conditional to the alt stack;
  otherwise such programs are refused. -/
  useAltStack : Bool := true
  /-- Replace references by stack operations. -/
  inlineNames : Bool := true
  /-- Run the peephole rules. -/
  peephole : Bool := true
  /-- Which one is reported where a program reads several names that its initial stack does not
  have. Nothing determines the order in which they are found, so this counts round their list, and
  what is said of a program holds for every number. -/
  reported : Nat := 0
  deriving DecidableEq, Repr

end NamedStack
