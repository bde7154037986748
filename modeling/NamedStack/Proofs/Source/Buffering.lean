import NamedStack.Proofs.Source.Supply

/-!
# Reading a text through a buffer

The scanner looks for a token in the bytes that its buffer holds; while there is none, it drops what
can be dropped, makes room and asks for more. However the text is cut into pieces, and however the
end of the text is told, the scanner finds the tokens of the text.
-/

namespace NamedStack.Lexer

/-! ### The scanner -/

/-- A scanner in the middle of a text. -/
structure Scanner where
  buffer : Buffer
  /-- Whether the end of the text was told. -/
  ended : Bool
  /-- What is still to arrive. -/
  supply : Supply
  /-- The tokens found so far, in reverse. -/
  found : List Bytes

namespace Scanner

/-- A scanner at the start of a text. -/
def on (supply : Supply) : Scanner := ⟨.empty, false, supply, []⟩

/-- What a scanner does next. -/
inductive Outcome where
  /-- It goes on. -/
  | next (s : Scanner)
  /-- It has read the text, or found out that the text cannot be read. -/
  | done (result : Except Cause (List Bytes))
  /-- It gives up, because too many reads in a row handed over nothing. -/
  | stalled

/-- Read in more of the text. -/
def fill (s : Scanner) : Outcome :=
  match s.buffer.makeRoom with
  | none => .done (.error .tokenTooLong)
  | some b =>
    match Supply.refill b.room (Supply.emptyReads + 1) s.supply with
    | none => .stalled
    | some h =>
      .next { s with buffer := b.receive h.got h.fits, ended := h.ended, supply := h.rest }

/-- Look for a token among the unread bytes, and read in more if there is none. -/
def step (s : Scanner) : Outcome :=
  -- At the start nothing is unread: there is no token in an empty window.
  match split s.buffer.unread s.ended with
  | .token a tok => .next { s with buffer := s.buffer.advance a, found := tok :: s.found }
  | .more a =>
    if s.ended then .done (.ok s.found.reverse)
    else fill { s with buffer := s.buffer.advance a }
  | .broken why => .done (.error (.badToken (text why)))

/-- What is left to do: every byte is read in and used, and the end of the text is told once. -/
def weight (s : Scanner) : Nat :=
  s.buffer.unread.length + 2 * s.supply.text.length + (!s.ended).toNat

/-- What reading in more can do. -/
theorem fill_cases (s : Scanner) :
    (s.fill = .done (.error .tokenTooLong) ∧ s.buffer.start = 0 ∧
      s.buffer.unread.length = windowSize) ∨
    (s.fill = .stalled ∧ ¬ s.supply.Steady) ∨
    ∃ (b : Buffer) (h : Handed b.room),
      s.fill = .next { s with
        buffer := b.receive h.got h.fits, ended := h.ended, supply := h.rest } ∧
      b.unread = s.buffer.unread ∧ 0 < b.room ∧ h.Continues s.supply ∧
      (h.ended = true ∨ h.got ≠ []) := by
  rw [fill]
  cases hroom : s.buffer.makeRoom with
  | none => exact .inl ⟨rfl, Buffer.makeRoom_eq_none hroom⟩
  | some b =>
    obtain ⟨hunread, hpos⟩ := Buffer.makeRoom_eq_some hroom
    dsimp only
    cases hfill : Supply.refill b.room (Supply.emptyReads + 1) s.supply with
    | none => exact .inr (.inl ⟨rfl, fun hsteady => hsteady.refill_ne_none hpos hfill⟩)
    | some h => exact .inr (.inr ⟨b, h, rfl, hunread, hpos, Supply.refill_continues hfill⟩)

variable {s : Scanner}

private theorem weight_fill {s' : Scanner} (hended : s.ended = false) (h : s.fill = .next s') :
    s'.weight < s.weight := by
  rcases fill_cases s with ⟨hdone, -⟩ | ⟨hstalled, -⟩ | ⟨b, r, hnext, hunread, -, hrest, hgot⟩
  · rw [h] at hdone
    cases hdone
  · rw [h] at hstalled
    cases hstalled
  · rw [h] at hnext
    cases hnext
    have htext : s.supply.text.length = r.got.length + r.rest.text.length := by
      rw [hrest.text, List.length_append]
    simp only [weight, Buffer.receive, hunread, htext, hended, List.length_append]
    rcases hgot with htold | hgot
    · simp only [htold, Bool.not_true, Bool.not_false, Bool.toNat_true, Bool.toNat_false]
      omega
    · have hpos := List.length_pos_iff.mpr hgot
      have hle := Bool.toNat_le (!r.ended)
      simp only [Bool.not_false, Bool.toNat_true]
      omega

private theorem weight_step {s' : Scanner} (h : s.step = .next s') : s'.weight < s.weight := by
  rw [step] at h
  cases hsplit : split s.buffer.unread s.ended with
  | token a tok =>
    rw [hsplit] at h
    cases h
    have hlt := (length_drop_of_split_token hsplit).2
    simp only [weight, Buffer.advance]
    omega
  | more a =>
    rw [hsplit] at h
    dsimp only at h
    split_ifs at h with hended
    refine (weight_fill (Bool.not_eq_true _ ▸ hended) h).trans_le ?_
    simp only [weight, Buffer.advance, List.length_drop]
    omega
  | broken why =>
    rw [hsplit] at h
    cases h

/-- Run a scanner to its end: there is no result if it stalls. -/
def run (s : Scanner) : Option (Except Cause (List Bytes)) :=
  match h : s.step with
  | .next s' =>
    have := weight_step h
    run s'
  | .done result => some result
  | .stalled => none
termination_by s.weight

/-! ### What a scanner finds -/

/-- What reading the rest of the text gives. -/
def answer (s : Scanner) : Except Cause (List Bytes) :=
  tokensAfter s.found (s.buffer.unread ++ s.supply.text)

/-- What holds of a scanner in the middle of a text. Once the end of the text is told, the unread
bytes are all that is left, and there are fewer of them than the largest window has, unless the
last of them came with the end. -/
structure Sound (s : Scanner) : Prop where
  told : s.ended = true → s.supply.text = []
  short : s.ended = true → s.supply.endsWithLast = false → s.buffer.unread.length < windowSize
  limit : s.supply.endsWithLast = true → s.answer ≠ .error .tokenTooLong
  steady : s.supply.Steady

/-- A step keeps the answer. -/
def Outcome.Keeps (answer : Except Cause (List Bytes)) : Outcome → Prop
  | .next s => s.Sound ∧ s.answer = answer
  | .done result => result = answer
  | .stalled => False

private theorem Sound.advance (h : s.Sound) {n : Nat} {found : List Bytes}
    (hanswer : answer { s with buffer := s.buffer.advance n, found := found } = s.answer) :
    Sound { s with buffer := s.buffer.advance n, found := found } where
  told := h.told
  short hended hmode := by
    have := h.short hended hmode
    simp only [Buffer.advance, List.length_drop]
    omega
  limit hmode := hanswer ▸ h.limit hmode
  steady := h.steady

private theorem fill_keeps (h : s.Sound)
    (hlong : s.buffer.start = 0 → s.buffer.unread.length = windowSize →
      s.answer = .error .tokenTooLong) : s.fill.Keeps s.answer := by
  rcases fill_cases s with ⟨hdone, hstart, hsize⟩ | ⟨-, hsteady⟩ |
    ⟨b, r, hnext, hunread, hroom, hrest, -⟩
  · rw [hdone]
    exact (hlong hstart hsize).symm
  · exact absurd h.steady hsteady
  · rw [hnext]
    have hanswer : answer { s with
        buffer := b.receive r.got r.fits, ended := r.ended, supply := r.rest } = s.answer := by
      simp only [answer, Buffer.receive, hunread, hrest.text, List.append_assoc]
    refine ⟨⟨hrest.last, fun hended hmode => ?_, fun hmode => ?_, hrest.steady h.steady⟩, hanswer⟩
    · -- The end was told by a read of its own, so there is still room behind the unread bytes.
      have hgot := hrest.alone hended (hrest.endsWithLast.symm.trans hmode)
      have hbounded := b.bounded
      simp only [Buffer.receive, hgot, List.append_nil]
      rw [Buffer.room] at hroom
      omega
    · rw [hanswer]
      exact h.limit (hrest.endsWithLast.symm.trans hmode)

/-- The unread bytes are a window at the front of what is left of the text. -/
theorem Sound.answer_eq (h : s.Sound) :
    s.answer = (split s.buffer.unread s.ended).continue s.found
      (s.buffer.unread ++ s.supply.text) := by
  apply tokensAfter_window s.found h.told (s.buffer.unread_le_size.trans s.buffer.bounded)
  intro hended
  cases hmode : s.supply.endsWithLast with
  | false => exact .inl (h.short hended hmode)
  | true => exact .inr (h.limit hmode)

private theorem step_keeps (h : s.Sound) : s.step.Keeps s.answer := by
  have hread := h.answer_eq
  rw [step]
  cases hsplit : split s.buffer.unread s.ended with
  | token a tok =>
    have hle := (length_drop_of_split_token hsplit).1
    have hanswer : answer { s with
        buffer := s.buffer.advance a, found := tok :: s.found } = s.answer := by
      rw [hread, hsplit, Split.continue, List.drop_append_of_le_length hle]
      rfl
    exact ⟨h.advance hanswer, hanswer⟩
  | more a =>
    rw [hsplit, Split.continue, List.drop_append_of_le_length (le_of_split_more hsplit)] at hread
    dsimp only
    split_ifs with hended
    · rw [h.told hended, List.append_nil] at hread
      rw [hended] at hsplit
      exact (hread.trans (tokensAfter_eq_ok_of_more s.found hsplit)).symm
    · rw [Bool.not_eq_true] at hended
      rw [hended] at hsplit
      rw [hread]
      refine fill_keeps (h.advance hread.symm) fun hstart hfull => ?_
      -- Nothing was dropped of a window of the largest size.
      simp only [Buffer.advance, List.length_drop] at hstart hfull
      obtain rfl : a = 0 := by
        have : 0 < windowSize := Nat.succ_pos _
        omega
      exact tokensAfter_eq_tooLong s.found s.supply.text hsplit hfull
  | broken why =>
    rw [hsplit] at hread
    exact hread.symm

/-- A scanner comes to an end and finds what reading the rest of the text gives. -/
theorem run_eq (h : s.Sound) : s.run = some s.answer := by
  fun_induction run s with
  | case1 s s' hstep _ ih =>
    obtain ⟨hsound, hanswer⟩ : Outcome.Keeps s.answer (.next s') := hstep ▸ step_keeps h
    rw [ih hsound, hanswer]
  | case2 s result hstep =>
    have hresult : Outcome.Keeps s.answer (.done result) := hstep ▸ step_keeps h
    rw [hresult]
  | case3 s hstep =>
    have hfalse : Outcome.Keeps s.answer .stalled := hstep ▸ step_keeps h
    exact hfalse.elim

end Scanner

/-- The tokens that a scanner finds in a text that arrives piece by piece. -/
def scan (d : Supply) : Option (Except Cause (List Bytes)) := (Scanner.on d).run

private theorem scan_eq {d : Supply} (hsteady : d.Steady)
    (hlimit : d.endsWithLast = true → tokens d.text ≠ .error .tokenTooLong) :
    scan d = some (tokens d.text) := by
  apply Scanner.run_eq
  exact ⟨Bool.noConfusion, Bool.noConfusion, hlimit, hsteady⟩

/-- Tokens do not depend on how the text is buffered. A token that is found before the end of the
text is found in every longer window. Where none is found yet, a longer window is looked at behind
the bytes that can be dropped. So a scanner finds the tokens of a text, or why it cannot be read,
however the text is cut into pieces, if it is not left without bytes for too many reads. Only where
the end of the text comes with its last bytes must nothing be too long: such an end takes no room,
and a word as long as the largest window can still be read. -/
theorem tokens_independent_of_buffering :
    (∀ (p q tok : Bytes) (a : Nat) (atEnd : Bool), split p false = .token a tok →
      split (p ++ q) atEnd = .token a tok) ∧
    (∀ (p q : Bytes) (a : Nat) (atEnd : Bool), split p false = .more a →
      split (p ++ q) atEnd = (split ((p ++ q).drop a) atEnd).after a) ∧
    ∀ d : Supply, d.Steady →
      (d.endsWithLast = true → tokens d.text ≠ .error .tokenTooLong) →
      scan d = some (tokens d.text) := by
  refine ⟨fun p q tok a atEnd h => ?_, fun p q a atEnd h => ?_, fun d => scan_eq⟩
  · rw [split_append, h]
    rfl
  · rw [split_append, h]
    rfl

/-- A quoted string that is cut inside of an escape, with an empty piece between its parts. -/
theorem tokens_found_across_pieces :
    (split [93, 39] false = .token 1 [93] ∧ split ([93, 39] ++ [92]) true = .token 1 [93]) ∧
    (split [32, 39, 92] false = .more 1 ∧
      split ([32, 39, 92] ++ [39, 32, 39, 93]) false =
        (split [39, 92, 39, 32, 39, 93] false).after 1) ∧
    scan ⟨[[32, 39, 92], [], [39, 32, 39, 93]], true⟩ =
      some (.ok [[39, 92, 39, 32, 39], [93]]) := by
  have htoken : split [93, 39] false = .token 1 [93] := by decide
  have hmore : split [32, 39, 92] false = .more 1 := by decide
  have htokens : tokens (Supply.text ⟨[[32, 39, 92], [], [39, 32, 39, 93]], true⟩) =
      .ok [[39, 92, 39, 32, 39], [93]] := by rfl
  refine ⟨⟨htoken, tokens_independent_of_buffering.1 _ _ _ _ _ htoken⟩,
    ⟨hmore, tokens_independent_of_buffering.2.1 _ _ _ _ hmore⟩, ?_⟩
  rw [← htokens]
  apply tokens_independent_of_buffering.2.2
  · exact fun hidle => absurd hidle.length_le (by decide)
  · intro _ hlong
    rw [htokens] at hlong
    cases hlong

end NamedStack.Lexer
