import NamedStack.Hash.Blocks

/-!
# RIPEMD-160

Two lines of eighty rounds a block, on five words each, which read the words of the block in
different orders and are joined at the end.
-/

namespace NamedStack.Hash.Ripemd160

/-- The five words of a state. -/
structure State where
  (a b c d e : UInt32)

/-- The state before the first block. -/
def start : State := ⟨0x67452301, 0xefcdab89, 0x98badcfe, 0x10325476, 0xc3d2e1f0⟩

/-- What a line of rounds does: the order in which it reads the block and how far each round moves
bits, in the order of the rounds, and the constants of its five groups. -/
structure Line where
  order : List Nat
  shifts : List UInt32
  constants : List UInt32

/-- The left line. -/
def left : Line where
  order :=
    [0, 1, 2, 3, 4, 5, 6, 7, 8, 9, 10, 11, 12, 13, 14, 15,
      7, 4, 13, 1, 10, 6, 15, 3, 12, 0, 9, 5, 2, 14, 11, 8,
      3, 10, 14, 4, 9, 15, 8, 1, 2, 7, 0, 6, 13, 11, 5, 12,
      1, 9, 11, 10, 0, 8, 12, 4, 13, 3, 7, 15, 14, 5, 6, 2,
      4, 0, 5, 9, 7, 12, 2, 10, 14, 1, 3, 8, 11, 6, 15, 13]
  shifts :=
    [11, 14, 15, 12, 5, 8, 7, 9, 11, 13, 14, 15, 6, 7, 9, 8,
      7, 6, 8, 13, 11, 9, 7, 15, 7, 12, 15, 9, 11, 7, 13, 12,
      11, 13, 6, 7, 14, 9, 13, 15, 14, 8, 13, 6, 5, 12, 7, 5,
      11, 12, 14, 15, 14, 15, 9, 8, 9, 14, 5, 6, 8, 6, 5, 12,
      9, 15, 5, 11, 6, 8, 13, 12, 5, 12, 13, 14, 11, 8, 5, 6]
  constants := [0, 0x5a827999, 0x6ed9eba1, 0x8f1bbcdc, 0xa953fd4e]

/-- The right line. -/
def right : Line where
  order :=
    [5, 14, 7, 0, 9, 2, 11, 4, 13, 6, 15, 8, 1, 10, 3, 12,
      6, 11, 3, 7, 0, 13, 5, 10, 14, 15, 8, 12, 4, 9, 1, 2,
      15, 5, 1, 3, 7, 14, 6, 9, 11, 8, 12, 2, 10, 0, 4, 13,
      8, 6, 4, 1, 3, 11, 15, 0, 5, 12, 2, 13, 9, 7, 10, 14,
      12, 15, 10, 4, 1, 5, 8, 7, 6, 2, 13, 14, 0, 3, 9, 11]
  shifts :=
    [8, 9, 9, 11, 13, 15, 15, 5, 7, 7, 8, 11, 14, 14, 12, 6,
      9, 13, 15, 7, 12, 8, 9, 11, 7, 7, 12, 7, 6, 15, 13, 11,
      9, 7, 15, 11, 8, 6, 6, 14, 12, 13, 5, 14, 13, 13, 7, 5,
      15, 5, 8, 11, 14, 14, 6, 14, 6, 9, 12, 9, 12, 5, 15, 8,
      8, 5, 12, 9, 12, 5, 14, 6, 8, 13, 6, 5, 15, 13, 11, 11]
  constants := [0x50a28be6, 0x5c4dd124, 0x6d703ef3, 0x7a6d76e9, 0]

/-- The function of a group of rounds. -/
def mix (group : Nat) (x y z : UInt32) : UInt32 :=
  match group with
  | 0 => x ^^^ y ^^^ z
  | 1 => (x &&& y) ||| (~~~ x &&& z)
  | 2 => (x ||| ~~~ y) ^^^ z
  | 3 => (x &&& z) ||| (y &&& ~~~ z)
  | _ => x ^^^ (y ||| ~~~ z)

/-- One round: the function of a group, then a constant, a word and a rotation. -/
def round (s : State) (group : Nat) (word constant shift : UInt32) : State :=
  let t := rotl (s.a + mix group s.b s.c s.d + word + constant) shift + s.e
  ⟨s.e, t, s.b, rotl s.c 10, s.d⟩

/-- The rounds of a line; the function of a round depends on its group. -/
def run (line : Line) (fn : Nat → Nat) (block : List UInt32) (s : State) : State :=
  (line.order.zip line.shifts).zipIdx.foldl (fun s p =>
    let group := p.2 / 16
    round s (fn group) (block.getD p.1.1 0) (line.constants.getD group 0) p.1.2) s

/-- The state after a block. The right line takes the functions in the opposite order. -/
def compress (s : State) (block : List UInt32) : State :=
  let l := run left id block s
  let r := run right (4 - ·) block s
  ⟨s.b + l.c + r.d, s.c + l.d + r.e, s.d + l.e + r.a, s.e + l.a + r.b, s.a + l.b + r.c⟩

/-- The hash of a message. -/
def hash (m : Bytes) : Bytes :=
  let s := (blocksOf .little m).foldl compress start
  bytesOf .little [s.a, s.b, s.c, s.d, s.e]

end NamedStack.Hash.Ripemd160
