import NamedStack.Bytes

/-!
# Blanks around a text

A text may be surrounded by white space of any script. The functions here work on the UTF-8 bytes:
they know the encodings of the white-space characters and drop them from both ends. Bytes that are
no valid text are kept.
-/

namespace NamedStack.Text

/-- The UTF-8 encodings of the white-space characters. -/
def blanks : List Bytes :=
  [[9], [10], [11], [12], [13], [32], [0xC2, 0x85], [0xC2, 0xA0], [0xE1, 0x9A, 0x80],
    [0xE2, 0x80, 0x80], [0xE2, 0x80, 0x81], [0xE2, 0x80, 0x82], [0xE2, 0x80, 0x83],
    [0xE2, 0x80, 0x84], [0xE2, 0x80, 0x85], [0xE2, 0x80, 0x86], [0xE2, 0x80, 0x87],
    [0xE2, 0x80, 0x88], [0xE2, 0x80, 0x89], [0xE2, 0x80, 0x8A], [0xE2, 0x80, 0xA8],
    [0xE2, 0x80, 0xA9], [0xE2, 0x80, 0xAF], [0xE2, 0x81, 0x9F], [0xE3, 0x80, 0x80]]

/-- Drop fronts of a byte string that are in a list, at most `n` of them. -/
def dropFronts (fronts : List Bytes) : Nat → Bytes → Bytes
  | 0, b => b
  | n + 1, b =>
    match fronts.find? (·.isPrefixOf b) with
    | none => b
    | some front => dropFronts fronts n (b.drop front.length)

/-- The byte string without the white space at its two ends. -/
def trim (b : Bytes) : Bytes :=
  let front := dropFronts blanks b.length b
  (dropFronts (blanks.map List.reverse) front.length front.reverse).reverse

end NamedStack.Text
