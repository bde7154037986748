import NamedStack.Format.Layout
import NamedStack.Scalar

/-!
# Values at a directive

The letter of a directive says in which form a value is written. A letter that does not fit the
value shows in the result, together with the type of the value and the value itself. A byte string
has forms of its own; at a letter for integers it is a list of its bytes.
-/

namespace NamedStack.Format

/-- The text for a letter that does not fit a value, which is given with its type. -/
def mismatch (letter : Char) (typed : Bytes) : Bytes :=
  text "%!" ++ Text.utf8 letter.toNat ++ text "(" ++ typed ++ text ")"

/-- An integer at a letter that fits integers. -/
def integer? (l : Layout) (letter : Char) (n : Int) : Option Bytes :=
  match letter with
  | 'v' | 'd' => some (l.integer .decimal n)
  | 'b' => some (l.integer .binary n)
  | 'o' => some (l.integer .octal n)
  | 'O' => some (l.integer .markedOctal n)
  | 'x' => some (l.integer .hex n)
  | 'X' => some (l.integer .upperHex n)
  | 'c' => some (l.char n)
  | 'q' => some (l.quotedChar n)
  | 'U' => some (l.codePoint n)
  | _ => none

/-- A byte of a byte string by default; in a program it is a marked hexadecimal number. -/
def defaultByte (l : Layout) (x : UInt8) : Bytes :=
  if l.literal then { l with sharp := true }.integer .hex x.toNat
  else l.integer .decimal x.toNat

/-- A byte of a byte string at a letter for integers. -/
def byteAt (l : Layout) (letter : Char) (x : UInt8) : Bytes :=
  match integer? l letter x.toNat with
  | some b => b
  | none => mismatch letter (text "uint8=" ++ defaultByte l x)

/-- The items of a byte string in a row, behind the given type if it is written as in a program. -/
def row (l : Layout) (type : Bytes) (items : List Bytes) : Bytes :=
  if l.literal then type ++ text "\x7b" ++ Bytes.join (text ", ") items ++ text "\x7d"
  else text "[" ++ Bytes.join (text " ") items ++ text "]"

/-- A value in its default form. -/
def byDefault (l : Layout) : Scalar → Bytes
  | .str b => if l.literal then l.quoted b else l.plain b
  | .int n => l.integer .decimal n
  | .bool b => l.pad (Scalar.boolText b)
  | .null => l.pad (text "<nil>")
  | .bytes b => row l (text "[]byte") (b.map (defaultByte l))

/-- A value with its type. -/
def typed (l : Layout) : Scalar → Bytes
  | .null => text "<nil>"
  | v => v.typeName ++ text "=" ++ byDefault l v

/-- A value at a letter. -/
def value (l : Layout) (letter : Char) (v : Scalar) : Bytes :=
  match letter, v with
  | 'v', v => byDefault l v
  | 'T', .null => l.pad (text "<nil>")
  | 'T', v => l.plain v.typeName
  | 's', .str b | 's', .bytes b => l.plain b
  | 'q', .str b | 'q', .bytes b => l.quoted b
  | 'x', .str b | 'x', .bytes b => l.hexBytes false b
  | 'X', .str b | 'X', .bytes b => l.hexBytes true b
  | 't', .bool b => l.pad (Scalar.boolText b)
  | letter, .int n => (integer? l letter n).getD (mismatch letter (typed l v))
  | letter, .bytes b => row l v.typeName (b.map (byteAt l letter))
  | letter, v => mismatch letter (typed l v)

end NamedStack.Format
