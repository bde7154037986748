import NamedStack.Text.Numeral

/-!
# Scalars in messages

Messages, data items and log entries carry a few kinds of values. This module says how each one is
written by default, alone and in a row.
-/

namespace NamedStack

/-- A value that a message, a data item or a log entry carries. -/
inductive Scalar where
  | str (b : Bytes)
  | int (n : Int)
  | bool (b : Bool)
  | null
  | bytes (b : Bytes)
  deriving DecidableEq, Repr

namespace Scalar

/-- The two truth values in words. -/
def boolText (b : Bool) : Bytes := if b then text "true" else text "false"

/-- The numbers of a byte string between square brackets. -/
def byteList (b : Bytes) : Bytes :=
  text "[" ++ Bytes.join (text " ") (b.map fun x => Bytes.ofNat x.toNat) ++ text "]"

/-- The value as it is written by default. -/
def print : Scalar → Bytes
  | .str b => b
  | .int n => Bytes.ofInt n
  | .bool b => boolText b
  | .null => text "<nil>"
  | .bytes b => byteList b

/-- Whether the value is a text. -/
def isStr : Scalar → Bool
  | .str _ => true
  | _ => false

/-- Values one after another, with a space between two of them when neither is a text. -/
def printAll : List Scalar → Bytes
  | [] => []
  | [v] => v.print
  | v :: w :: rest =>
    v.print ++ (if v.isStr || w.isStr then [] else text " ") ++ printAll (w :: rest)

/-- The name of the value's type. -/
def typeName : Scalar → Bytes
  | .str _ => text "string"
  | .int _ => text "int"
  | .bool _ => text "bool"
  | .null => text "<nil>"
  | .bytes _ => text "[]uint8"

end Scalar

end NamedStack
