import NamedStack.Bytes

/-!
# Messages in blocks

The hash functions of this library work on blocks of sixteen words of 32 bits. A message gets a bit
that is set, zeros, and its length in bits in the last eight bytes, so that it fills whole blocks.
The functions differ in the order of the bytes in a word and in how a block changes the state.
-/

namespace NamedStack.Hash

/-- The order of the bytes in a word. -/
inductive Endian where
  | big | little
  deriving DecidableEq, Repr

namespace Endian

/-- The bytes of a number, of which so many are taken. -/
def write (e : Endian) (width n : Nat) : Bytes :=
  match e with
  | .big => (Bytes.littleEndian width n).reverse
  | .little => Bytes.littleEndian width n

/-- The number that bytes stand for. -/
def read (e : Endian) (b : Bytes) : Nat :=
  match e with
  | .big => Bytes.toNatBE b
  | .little => Bytes.toNatLE b

end Endian

/-- A message with its padding and its length. -/
def padded (e : Endian) (m : Bytes) : Bytes :=
  m ++ 0x80 :: List.replicate ((119 - m.length % 64) % 64) 0 ++ e.write 8 (8 * m.length)

/-- The words in bytes; up to three bytes that fill no word are left out. -/
def words (e : Endian) : Bytes → List UInt32
  | a :: b :: c :: d :: rest => UInt32.ofNat (e.read [a, b, c, d]) :: words e rest
  | _ => []

/-- The first so many blocks of sixteen words. -/
def blocks : Nat → List UInt32 → List (List UInt32)
  | 0, _ => []
  | n + 1, ws => ws.take 16 :: blocks n (ws.drop 16)

/-- The blocks of a message. -/
def blocksOf (e : Endian) (m : Bytes) : List (List UInt32) :=
  let ws := words e (padded e m)
  blocks (ws.length / 16) ws

/-- A word with its bits moved round to the left. -/
def rotl (x : UInt32) (n : UInt32) : UInt32 := (x <<< n) ||| (x >>> (32 - n))

/-- A word with its bits moved round to the right. -/
def rotr (x : UInt32) (n : UInt32) : UInt32 := (x >>> n) ||| (x <<< (32 - n))

/-- The bytes of words. -/
def bytesOf (e : Endian) (ws : List UInt32) : Bytes := ws.flatMap fun w => e.write 4 w.toNat

end NamedStack.Hash
