import NamedStack.Hash.Opcode

/-!
# Base 58

Bytes as digits in base 58, without characters that look alike. A zero byte in front is kept as the
digit one. With a check, four bytes of a hash follow the content.
-/

namespace NamedStack.Base58

/-- The digits, in the order of their values. -/
def alphabet : Bytes := text "123456789ABCDEFGHJKLMNPQRSTUVWXYZabcdefghijkmnopqrstuvwxyz"

/-- The digits of a number, the last one first. -/
def digits (n : Nat) : Bytes :=
  if n = 0 then [] else alphabet.getD (n % 58) 0 :: digits (n / 58)
termination_by n

/-- Bytes in base 58. -/
def encode (b : Bytes) : Bytes :=
  (b.takeWhile (· = 0)).map (fun _ => alphabet.getD 0 0) ++ (digits (Bytes.toNatBE b)).reverse

/-- A version and a content in base 58, with four bytes of their hash as a check. -/
def encodeChecked (version : UInt8) (content : Bytes) : Bytes :=
  let b := version :: content
  encode (b ++ (Hash.double b).take 4)

end NamedStack.Base58
