import NamedStack.Proofs.Source.Windows

/-!
# A text that arrives in pieces

A text arrives in pieces, some of which may be empty, and is read into a buffer, which grows up to
the largest window. A read hands on the front of what is left; a buffer without room drops what was
taken or grows.
-/

namespace NamedStack.Lexer

/-! ### A text that arrives in pieces -/

/-- A text that arrives piece by piece. -/
structure Supply where
  /-- What single reads hand over, as far as they have room for it; it may be nothing. -/
  pieces : List Bytes
  /-- Whether the end of the text is told with its last bytes, or only by one read more. -/
  endsWithLast : Bool
  deriving DecidableEq, Repr

/-- What a read into some room hands over. -/
structure Handed (room : Nat) where
  got : Bytes
  /-- Whether the end of the text is told. -/
  ended : Bool
  /-- What is still to arrive. -/
  rest : Supply
  fits : got.length ≤ room

namespace Supply

/-- The text as a whole. -/
def text (d : Supply) : Bytes := d.pieces.flatten

/-- One read. A piece that does not fit is cut. -/
def read (d : Supply) (room : Nat) : Handed room :=
  match d.pieces with
  | [] => ⟨[], true, d, Nat.zero_le room⟩
  | p :: ps =>
    if h : room < p.length then
      ⟨p.take room, false, { d with pieces := p.drop room :: ps }, List.length_take_le room p⟩
    else ⟨p, d.endsWithLast && ps.isEmpty, { d with pieces := ps }, Nat.not_lt.mp h⟩

/-- How many reads in a row may hand over nothing. -/
def emptyReads : Nat := 100

/-- Reads until one hands over something or tells the end of the text, if one of the next `tries`
reads does. -/
def refill (room : Nat) : Nat → Supply → Option (Handed room)
  | 0, _ => none
  | tries + 1, d =>
    if (d.read room).ended || !(d.read room).got.isEmpty then some (d.read room)
    else refill room tries (d.read room).rest

/-- Never do more reads in a row hand over nothing than may. -/
def Steady (d : Supply) : Prop := ¬ List.replicate (emptyReads + 1) [] <:+: d.pieces

variable {d : Supply} {ps : List Bytes}

private theorem Steady.of_suffix (h : d.Steady) (hps : ps <:+ d.pieces) :
    Steady { d with pieces := ps } :=
  fun hidle => h (hidle.trans hps.isInfix)

private theorem Steady.cut {p p' : Bytes} (h : d.Steady) (hpieces : d.pieces = p :: ps)
    (hp : p' ≠ []) : Steady { d with pieces := p' :: ps } := by
  intro hidle
  rcases List.infix_cons_iff.mp hidle with hfront | hinner
  · rw [List.replicate_succ, List.cons_prefix_cons] at hfront
    exact hp hfront.1.symm
  · exact h (hinner.trans (hpieces ▸ List.infix_cons List.infix_rfl))

end Supply

/-- What was handed over is the front of the text, and the rest goes on in the same way. -/
structure Handed.Continues {room : Nat} (h : Handed room) (d : Supply) : Prop where
  text : d.text = h.got ++ h.rest.text
  last : h.ended = true → h.rest.text = []
  alone : h.ended = true → d.endsWithLast = false → h.got = []
  endsWithLast : h.rest.endsWithLast = d.endsWithLast
  steady : d.Steady → h.rest.Steady

namespace Supply

private theorem read_continues (d : Supply) (room : Nat) : (d.read room).Continues d := by
  obtain ⟨pieces, mode⟩ := d
  cases pieces with
  | nil => exact ⟨rfl, fun _ => rfl, fun _ _ => rfl, rfl, id⟩
  | cons p ps =>
    rw [read]
    dsimp only
    split_ifs with hroom
    · have hrest : p.drop room ≠ [] := by
        rw [Ne, List.drop_eq_nil_iff]
        omega
      refine ⟨?_, Bool.noConfusion, Bool.noConfusion, rfl, fun h => h.cut rfl hrest⟩
      rw [text, text, List.flatten_cons, List.flatten_cons, ← List.append_assoc,
        List.take_append_drop]
    · refine ⟨List.flatten_cons, fun hend => ?_, fun hend hmode => ?_, rfl,
        fun h => h.of_suffix (List.suffix_cons p ps)⟩
      · rw [Bool.and_eq_true, List.isEmpty_iff] at hend
        rw [text, hend.2, List.flatten_nil]
      · rw [Bool.and_eq_true] at hend
        exact absurd (hmode.symm.trans hend.1) Bool.false_ne_true

variable {d : Supply} {room : Nat}

variable {tries : Nat}

/-- A refill hands over something or tells the end of the text. -/
theorem refill_continues {h : Handed room} (hfill : refill room tries d = some h) :
    h.Continues d ∧ (h.ended = true ∨ h.got ≠ []) := by
  induction tries generalizing d with
  | zero => cases hfill
  | succ tries ih =>
    have hread := read_continues d room
    rw [refill] at hfill
    split_ifs at hfill with hdone
    · cases hfill
      simp only [Bool.or_eq_true, Bool.not_eq_true', List.isEmpty_eq_false_iff] at hdone
      exact ⟨hread, hdone⟩
    · obtain ⟨hrest, hgot⟩ := ih hfill
      -- A read that hands over nothing leaves the text as it is.
      have hnone : (d.read room).got = [] := by
        simp only [Bool.or_eq_true, Bool.not_eq_true', List.isEmpty_eq_false_iff, not_or,
          not_not] at hdone
        exact hdone.2
      refine ⟨⟨?_, hrest.last, fun hend hmode => ?_, ?_, fun hs => hrest.steady (hread.steady hs)⟩,
        hgot⟩
      · rw [hread.text, hnone, List.nil_append, hrest.text]
      · exact hrest.alone hend (hread.endsWithLast.trans hmode)
      · exact hrest.endsWithLast.trans hread.endsWithLast

/-- With room for a byte, a refill fails only after that many empty pieces. -/
theorem refill_ne_none (hroom : 0 < room) (h : ¬ List.replicate tries [] <+: d.pieces) :
    refill room tries d ≠ none := by
  induction tries generalizing d with
  | zero => exact absurd List.nil_prefix h
  | succ tries ih =>
    obtain ⟨pieces, mode⟩ := d
    rw [refill]
    split_ifs with hdone
    · exact Option.some_ne_none _
    · cases pieces with
      | nil => exact absurd rfl hdone
      | cons p ps =>
        have hp : p = [] := by
          by_contra hne
          apply hdone
          rw [read]
          dsimp only
          split_ifs <;> simp [hne, hroom.ne']
        subst hp
        apply ih
        intro hempty
        apply h
        rw [List.replicate_succ]
        exact List.cons_prefix_cons.mpr ⟨rfl, hempty⟩

/-- A steady supply hands over bytes or ends. -/
theorem Steady.refill_ne_none (h : d.Steady) (hroom : 0 < room) :
    refill room (emptyReads + 1) d ≠ none :=
  Supply.refill_ne_none hroom fun hempty => h hempty.isInfix

end Supply

/-! ### The buffer -/

/-- A buffer with the bytes that were read in and not yet used. -/
structure Buffer where
  /-- How many bytes the buffer can hold. -/
  size : Nat
  /-- How many bytes in front of the unread ones are used. -/
  start : Nat
  unread : Bytes
  within : start + unread.length ≤ size
  bounded : size ≤ windowSize

namespace Buffer

/-- A buffer that holds nothing. -/
def empty : Buffer := ⟨0, 0, [], Nat.le_refl 0, Nat.zero_le windowSize⟩

/-- How many bytes can be read in behind the unread ones. -/
def room (b : Buffer) : Nat := b.size - (b.start + b.unread.length)

/-- No more is unread than the buffer holds. -/
theorem unread_le_size (b : Buffer) : b.unread.length ≤ b.size :=
  (Nat.le_add_left _ _).trans b.within

/-- Use up bytes at the front. -/
def advance (b : Buffer) (n : Nat) : Buffer where
  size := b.size
  start := b.start + min n b.unread.length
  unread := b.unread.drop n
  within := by
    have := b.within
    rw [List.length_drop]
    omega
  bounded := b.bounded

/-- Move the unread bytes to the front of the buffer. -/
def shift (b : Buffer) : Buffer where
  size := b.size
  start := 0
  unread := b.unread
  within := by
    rw [Nat.zero_add]
    exact b.unread_le_size
  bounded := b.bounded

/-- The size of the first buffer that can hold anything. -/
def firstSize : Nat := 4096

/-- Move the unread bytes to a buffer of twice the size. -/
def grow (b : Buffer) : Buffer where
  size := min (if b.size = 0 then firstSize else 2 * b.size) windowSize
  start := 0
  unread := b.unread
  within := by
    have hunread := b.unread_le_size
    have hbounded := b.bounded
    split_ifs <;> omega
  bounded := Nat.min_le_right _ _

/-- The buffer with the unread bytes moved, if there is little room behind them. -/
def compact (b : Buffer) : Buffer :=
  if 0 < b.start ∧ (b.room = 0 ∨ b.size / 2 < b.start) then b.shift else b

/-- The buffer with room for a byte or more, if the unread bytes are not too many. -/
def makeRoom (b : Buffer) : Option Buffer :=
  if b.compact.room = 0 then
    if windowSize ≤ b.compact.size then none else some b.compact.grow
  else some b.compact

/-- Put bytes behind the unread ones. -/
def receive (b : Buffer) (got : Bytes) (h : got.length ≤ b.room) : Buffer where
  size := b.size
  start := b.start
  unread := b.unread ++ got
  within := by
    have := b.within
    rw [room] at h
    rw [List.length_append]
    omega
  bounded := b.bounded

@[simp] theorem unread_compact (b : Buffer) : b.compact.unread = b.unread := by
  rw [compact]
  split_ifs <;> rfl

variable {b : Buffer}

/-- Moving the unread bytes makes room, so without room nothing was in front of them. -/
theorem compact_full (h : b.compact.room = 0) : b.compact = b ∧ b.start = 0 := by
  have hwithin := b.within
  rw [compact] at h ⊢
  split_ifs at h ⊢ with hmove
  · simp only [room, shift] at h
    omega
  · simp only [room] at h hmove
    exact ⟨rfl, by omega⟩

private theorem room_grow (h : ¬ windowSize ≤ b.size) : 0 < b.grow.room := by
  have hunread := b.unread_le_size
  simp only [room, grow, firstSize]
  split_ifs <;> omega

/-- Making room keeps what is unread. -/
theorem makeRoom_eq_some {b' : Buffer} (h : b.makeRoom = some b') :
    b'.unread = b.unread ∧ 0 < b'.room := by
  rw [makeRoom] at h
  split_ifs at h with hfull hsize
  · cases h
    exact ⟨b.unread_compact, room_grow hsize⟩
  · cases h
    exact ⟨b.unread_compact, Nat.pos_of_ne_zero hfull⟩

/-- There is no room only behind as many bytes as the largest window has. -/
theorem makeRoom_eq_none (h : b.makeRoom = none) : b.start = 0 ∧ b.unread.length = windowSize := by
  rw [makeRoom] at h
  split_ifs at h with hfull hsize
  obtain ⟨hsame, hstart⟩ := compact_full hfull
  have hwithin := b.within
  have hbounded := b.bounded
  rw [hsame] at hfull hsize
  rw [room] at hfull
  exact ⟨hstart, by omega⟩

end Buffer

end NamedStack.Lexer
