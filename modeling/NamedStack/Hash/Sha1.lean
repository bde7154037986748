import NamedStack.Hash.Blocks

/-!
# SHA-1

Eighty rounds a block, on five words, in four groups of twenty.
-/

namespace NamedStack.Hash.Sha1

/-- The five words of the state. -/
structure State where
  (a b c d e : UInt32)

/-- The state before the first block. -/
def start : State := ⟨0x67452301, 0xefcdab89, 0x98badcfe, 0x10325476, 0xc3d2e1f0⟩

/-- Extend a schedule, its last word first, by so many words. -/
def extend : Nat → List UInt32 → List UInt32
  | 0, ws => ws
  | n + 1, ws =>
    extend n (rotl (ws.getD 2 0 ^^^ ws.getD 7 0 ^^^ ws.getD 13 0 ^^^ ws.getD 15 0) 1 :: ws)

/-- The constant of a round. -/
def constant (i : Nat) : UInt32 :=
  if i < 20 then 0x5a827999 else if i < 40 then 0x6ed9eba1
  else if i < 60 then 0x8f1bbcdc else 0xca62c1d6

/-- The function of a round. -/
def mix (i : Nat) (b c d : UInt32) : UInt32 :=
  if i < 20 then (b &&& c) ||| (~~~ b &&& d)
  else if i < 40 then b ^^^ c ^^^ d
  else if i < 60 then (b &&& c) ||| (b &&& d) ||| (c &&& d)
  else b ^^^ c ^^^ d

/-- One round, with its number and its word of the schedule. -/
def round (s : State) (w : UInt32) (i : Nat) : State :=
  ⟨rotl s.a 5 + mix i s.b s.c s.d + s.e + constant i + w, s.a, rotl s.b 30, s.c, s.d⟩

/-- The state after a block. -/
def compress (s : State) (block : List UInt32) : State :=
  let schedule := (extend 64 block.reverse).reverse
  let t := schedule.zipIdx.foldl (fun s p => round s p.1 p.2) s
  ⟨s.a + t.a, s.b + t.b, s.c + t.c, s.d + t.d, s.e + t.e⟩

/-- The hash of a message. -/
def hash (m : Bytes) : Bytes :=
  let s := (blocksOf .big m).foldl compress start
  bytesOf .big [s.a, s.b, s.c, s.d, s.e]

end NamedStack.Hash.Sha1
