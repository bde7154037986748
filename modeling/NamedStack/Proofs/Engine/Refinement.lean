import NamedStack.Proofs.Engine.Pieces

/-!
# When one run can stand for another

A run of pieces may be exchanged for another one if, from every state from which the first one runs
to its end, so does the second, with the same stacks and conditionals and with no more opcodes
counted. This is kept by whatever stands around the two runs. For opcodes that act on the main stack
only, it is enough to compare what they do to that stack.
-/

namespace NamedStack

/-- Whether an opcode acts on the main stack alone, by its effect. -/
def Opcode.isPlain : Opcode → Bool
  | .opIf | .opNotIf | .opElse | .opEndIf | .toAltStack | .fromAltStack | .checkMultiSig
  | .checkMultiSigVerify => false
  | _ => true

namespace Engine

open Script (Piece)

/-- A computation after another one has a result exactly if both have. -/
theorem bind_eq_ok_iff {ε α β : Type} {x : Except ε α} {f : α → Except ε β} {b : β} :
    x.bind f = .ok b ↔ ∃ a, x = .ok a ∧ f a = .ok b := by
  cases x with
  | error e => exact ⟨nofun, fun ⟨_, h, _⟩ => nomatch h⟩
  | ok a =>
    constructor
    · intro h
      exact ⟨a, rfl, h⟩
    · rintro ⟨a', h, hf⟩
      cases h
      exact hf

/-! ### States that differ in what was counted -/

/-- The same stacks and conditionals, with no more opcodes counted. -/
structure State.Within (s t : State) : Prop where
  main : s.main = t.main
  alt : s.alt = t.alt
  conds : s.conds = t.conds
  ops : s.ops ≤ t.ops

namespace State.Within

/-- A state is within itself. -/
theorem refl (s : State) : s.Within s := ⟨rfl, rfl, rfl, Nat.le_refl _⟩

variable {s t t' : State}

variable (h : s.Within t)

include h

/-- Within what is within another. -/
theorem trans {u : State} (k : t.Within u) : s.Within u :=
  ⟨h.main.trans k.main, h.alt.trans k.alt, h.conds.trans k.conds, Nat.le_trans h.ops k.ops⟩

/-- Both are running or both are not. -/
theorem running : s.running = t.running := by
  rw [State.running, State.running, h.conds]

private theorem count (n : Nat) (ht : t.count n = .ok t') :
    ∃ s', s.count n = .ok s' ∧ s'.Within t' := by
  have hops := h.ops
  unfold State.count at ht ⊢
  split at ht
  · cases ht
  · cases ht
    rw [if_neg (by omega)]
    exact ⟨_, rfl, h.main, h.alt, h.conds, Nat.add_le_add_right hops n⟩

private theorem onMain (f : Stack → Option Stack) (ht : t.onMain f = .ok t') :
    ∃ s', s.onMain f = .ok s' ∧ s'.Within t' := by
  obtain ⟨m, hm, rfl⟩ := (onMain_iff f t t').mp ht
  exact ⟨_, (onMain_iff f s _).mpr ⟨m, h.main ▸ hm, rfl⟩, rfl, h.alt, h.conds, h.ops⟩

private theorem openCond (test : Bytes → Bool) (ht : t.openCond test = .ok t') :
    ∃ s', s.openCond test = .ok s' ∧ s'.Within t' := by
  cases hr : t.running with
  | false =>
    rw [openCond_skipped hr] at ht
    cases ht
    rw [openCond_skipped (h.running.trans hr)]
    exact ⟨_, rfl, h.main, h.alt, congrArg (Cond.inert :: ·) h.conds, h.ops⟩
  | true =>
    obtain ⟨a, main, hm, rfl⟩ := (openCond_iff hr test t').mp ht
    exact ⟨_, (openCond_iff (h.running.trans hr) test _).mpr ⟨a, main, h.main.trans hm, rfl⟩,
      rfl, h.alt, congrArg (_ :: ·) h.conds, h.ops⟩

private theorem flip (ht : t.flip = .ok t') : ∃ s', s.flip = .ok s' ∧ s'.Within t' := by
  obtain ⟨c, conds, hc, rfl⟩ := (flip_iff t t').mp ht
  exact ⟨_, (flip_iff s _).mpr ⟨c, conds, h.conds.trans hc, rfl⟩, h.main, h.alt, rfl, h.ops⟩

private theorem close (ht : t.close = .ok t') : ∃ s', s.close = .ok s' ∧ s'.Within t' := by
  obtain ⟨c, conds, hc, rfl⟩ := (close_iff t t').mp ht
  exact ⟨_, (close_iff s _).mpr ⟨c, conds, h.conds.trans hc, rfl⟩, h.main, h.alt, rfl, h.ops⟩

end State.Within

/-! ### What opcodes do, apart from counting -/

variable {o : Opcode} {s t t' : State} {p : Piece}

/-- A plain opcode acts by its effect in code that runs, and not at all elsewhere. -/
theorem exec_plain (valid : Checker) (h : o.isPlain = true) (s : State) :
    exec valid o s = if s.running then s.onMain (effect valid o) else .ok s := by
  cases o <;> first | rfl | cases h

/-- A plain opcode in code that runs. -/
theorem exec_plain_iff (valid : Checker) (h : o.isPlain = true)
    (hr : s.running = true) (t : State) :
    exec valid o s = .ok t ↔ ∃ m, effect valid o s.main = some m ∧ t = { s with main := m } := by
  rw [exec_plain valid h, if_pos hr, onMain_iff]

private theorem exec_multisig_within (valid : Checker)
    (ho : o = .checkMultiSig ∨ o = .checkMultiSigVerify) (h : s.Within t) (hr : t.running = true)
    (ht : exec valid o t = .ok t') : ∃ s', exec valid o s = .ok s' ∧ s'.Within t' := by
  rw [exec_multisig valid ho hr] at ht
  rw [exec_multisig valid ho (h.running.trans hr), h.main]
  cases hm : multisig t.main with
  | none => rw [hm] at ht; cases ht
  | some m =>
    rw [hm] at ht
    obtain ⟨u, hu, ht⟩ := bind_eq_ok_iff.mp ht
    obtain ⟨v, hv, hw⟩ := h.count _ hu
    obtain ⟨s', hs, hw⟩ := hw.onMain _ ht
    exact ⟨s', bind_eq_ok_iff.mpr ⟨v, hv, hs⟩, hw⟩

private theorem exec_altMove_within (valid : Checker) (ho : o = .toAltStack ∨ o = .fromAltStack)
    (h : s.Within t) (hr : t.running = true) (ht : exec valid o t = .ok t') :
    ∃ s', exec valid o s = .ok s' ∧ s'.Within t' := by
  have hr' : s.running = true := h.running.trans hr
  rcases ho with rfl | rfl
  · obtain ⟨a, main, hm, rfl⟩ := (exec_toAltStack_iff valid hr t').mp ht
    exact ⟨_, (exec_toAltStack_iff valid hr' _).mpr ⟨a, main, h.main.trans hm, rfl⟩,
      rfl, congrArg (a :: ·) h.alt, h.conds, h.ops⟩
  · obtain ⟨a, alt, ha, rfl⟩ := (exec_fromAltStack_iff valid hr t').mp ht
    exact ⟨_, (exec_fromAltStack_iff valid hr' _).mpr ⟨a, alt, h.alt.trans ha, rfl⟩,
      congrArg (a :: ·) h.main, rfl, h.conds, h.ops⟩

/-- An opcode that runs with more opcodes counted before it also runs with fewer. -/
theorem exec_within (valid : Checker) (o : Opcode) (h : s.Within t) (ht : exec valid o t = .ok t') :
    ∃ s', exec valid o s = .ok s' ∧ s'.Within t' := by
  by_cases hp : o.isPlain = true
  · rw [exec_plain valid hp] at ht ⊢
    rw [h.running]
    cases hr : t.running with
    | true =>
      rw [hr] at ht
      exact h.onMain _ ht
    | false =>
      rw [hr] at ht
      cases ht
      exact ⟨s, rfl, h⟩
  · -- the opcodes of conditionals, the moves between the stacks and the multisignature checks
    by_cases hskip : o.isMarker = false ∧ t.running = false
    · rw [exec_skipped valid hskip.1 hskip.2] at ht
      cases ht
      exact ⟨s, exec_skipped valid hskip.1 (h.running.trans hskip.2), h⟩
    · have hrun (hm : o.isMarker = false) : t.running = true :=
        Bool.eq_true_of_not_eq_false fun hr => hskip ⟨hm, hr⟩
      cases o with
      | opIf => exact h.openCond _ ht
      | opNotIf => exact h.openCond _ ht
      | opElse => exact h.flip ht
      | opEndIf => exact h.close ht
      | toAltStack => exact exec_altMove_within valid (.inl rfl) h (hrun rfl) ht
      | fromAltStack => exact exec_altMove_within valid (.inr rfl) h (hrun rfl) ht
      | checkMultiSig => exact exec_multisig_within valid (.inl rfl) h (hrun rfl) ht
      | checkMultiSigVerify => exact exec_multisig_within valid (.inr rfl) h (hrun rfl) ht
      | _ => exact absurd rfl hp

private theorem act_within (valid : Checker) (p : Piece) (h : s.Within t)
    (ht : act valid t p = .ok t') : ∃ s', act valid s p = .ok s' ∧ s'.Within t' := by
  cases p with
  | opcode o => exact exec_within valid o h ht
  | data d =>
    simp only [act, h.running] at ht ⊢
    cases ht
    refine ⟨_, rfl, ?_⟩
    split
    · exact ⟨by simp [State.push, h.main], h.alt, h.conds, h.ops⟩
    · exact h

private theorem charge_eq_ok_iff (p : Piece) (s t : State) :
    charge p s = .ok t ↔
      (cost p = 0 ∨ s.ops + cost p ≤ maxOps) ∧ t = { s with ops := s.ops + cost p } := by
  unfold charge State.count
  by_cases hc : cost p = 0
  · simp only [hc, if_true, Except.ok.injEq, true_or, true_and, Nat.add_zero]
    exact eq_comm
  · rw [if_neg hc]
    by_cases hm : maxOps < s.ops + cost p
    · rw [if_pos hm]
      exact ⟨nofun, fun h => absurd h.1 (by omega)⟩
    · rw [if_neg hm, Except.ok.injEq]
      exact ⟨fun h => ⟨.inr (Nat.not_lt.mp hm), h.symm⟩, fun h => h.2.symm⟩

private theorem bounded_eq_ok_iff (s t : State) :
    s.bounded = .ok t ↔ s.main.length + s.alt.length ≤ maxItems ∧ t = s := by
  unfold State.bounded
  split
  · next h => exact ⟨nofun, fun k => absurd k.1 (Nat.not_le.mpr h)⟩
  · next h =>
    simp only [Except.ok.injEq, Nat.not_lt.mp h, true_and]
    exact eq_comm

/-- A piece is run by counting it, acting and looking at the number of items. -/
theorem stepPiece_eq_ok_iff (valid : Checker) (s t : State) (p : Piece) :
    stepPiece valid s p = .ok t ↔
      isDisabled p = false ∧ (cost p = 0 ∨ s.ops + cost p ≤ maxOps) ∧
        act valid { s with ops := s.ops + cost p } p = .ok t ∧
        t.main.length + t.alt.length ≤ maxItems := by
  unfold stepPiece
  cases isDisabled p with
  | true => simp
  | false =>
    simp only [Bool.false_eq_true, if_false, true_and]
    constructor
    · intro h
      obtain ⟨u, hu, hrest⟩ := bind_eq_ok_iff.mp h
      obtain ⟨v, hv, hbound⟩ := bind_eq_ok_iff.mp hrest
      obtain ⟨hc, rfl⟩ := (charge_eq_ok_iff p s u).mp hu
      obtain ⟨hb, rfl⟩ := (bounded_eq_ok_iff v t).mp hbound
      exact ⟨hc, hv, hb⟩
    · rintro ⟨hc, hv, hb⟩
      exact bind_eq_ok_iff.mpr ⟨_, (charge_eq_ok_iff p s _).mpr ⟨hc, rfl⟩,
        bind_eq_ok_iff.mpr ⟨t, hv, (bounded_eq_ok_iff t t).mpr ⟨hb, rfl⟩⟩⟩

/-- A piece that runs with more opcodes counted before it also runs with fewer. -/
theorem stepPiece_within (valid : Checker) (p : Piece) (h : s.Within t)
    (ht : stepPiece valid t p = .ok t') : ∃ s', stepPiece valid s p = .ok s' ∧ s'.Within t' := by
  obtain ⟨hd, hc, ha, hb⟩ := (stepPiece_eq_ok_iff valid t t' p).mp ht
  have hops := h.ops
  have hw : State.Within { s with ops := s.ops + cost p } { t with ops := t.ops + cost p } :=
    ⟨h.main, h.alt, h.conds, Nat.add_le_add_right hops _⟩
  obtain ⟨s', hs', hw⟩ := act_within valid p hw ha
  refine ⟨s', (stepPiece_eq_ok_iff valid s s' p).mpr ⟨hd, by omega, hs', ?_⟩, hw⟩
  rwa [hw.main, hw.alt]

/-- Pieces that run with more opcodes counted before them also run with fewer. -/
theorem runPieces_within (valid : Checker) (ps : List Piece) (h : s.Within t)
    (ht : runPieces valid t ps = .ok t') : ∃ s', runPieces valid s ps = .ok s' ∧ s'.Within t' := by
  induction ps generalizing s t with
  | nil =>
    cases ht
    exact ⟨s, rfl, h⟩
  | cons p ps ih =>
    rw [runPieces_cons] at ht
    obtain ⟨u, hu, ht⟩ := bind_eq_ok_iff.mp ht
    obtain ⟨v, hv, hw⟩ := stepPiece_within valid p h hu
    obtain ⟨s', hs', hw⟩ := ih hw ht
    exact ⟨s', bind_eq_ok_iff.mpr ⟨v, hv, hs'⟩, hw⟩

/-! ### Refinement of runs of pieces -/

/-- From every state from which the old pieces run to their end, so do the new ones, with the same
stacks and conditionals and with no more opcodes counted. -/
def Refines (old new : List Piece) : Prop :=
  ∀ valid s t, runPieces valid s old = .ok t → ∃ t', runPieces valid s new = .ok t' ∧ t'.Within t

namespace Refines

/-- Pieces refine themselves. -/
theorem refl (ps : List Piece) : Refines ps ps := fun _ _ t h => ⟨t, h, .refl t⟩

/-- A refinement of a refinement. -/
theorem trans {ps qs rs : List Piece} (h : Refines ps qs) (k : Refines qs rs) : Refines ps rs := by
  intro valid s t ht
  obtain ⟨t', ht', hw⟩ := h valid s t ht
  obtain ⟨t'', ht'', hw'⟩ := k valid s t' ht'
  exact ⟨t'', ht'', hw'.trans hw⟩

/-- What stands in front and behind does not matter. -/
theorem append {old new : List Piece} (h : Refines old new) (front back : List Piece) :
    Refines (front ++ old ++ back) (front ++ new ++ back) := by
  intro valid s t ht
  rw [runPieces_append] at ht
  obtain ⟨v, hv, ht⟩ := bind_eq_ok_iff.mp ht
  rw [runPieces_append] at hv
  obtain ⟨u, hu, hv⟩ := bind_eq_ok_iff.mp hv
  obtain ⟨v', hv', hw⟩ := h valid u v hv
  obtain ⟨t', ht', hw⟩ := runPieces_within valid back hw ht
  refine ⟨t', ?_, hw⟩
  rw [runPieces_append, runPieces_append]
  exact bind_eq_ok_iff.mpr ⟨v', bind_eq_ok_iff.mpr ⟨u, hu, hv'⟩, ht'⟩

end Refines

/-! ### Plain pieces -/

/-- Whether a piece acts on the main stack alone. -/
def isPlain : Piece → Bool
  | .opcode o => o.isPlain
  | .data _ => true

/-- What a plain piece does to the main stack. -/
def effectOf (valid : Checker) : Piece → Stack → Option Stack
  | .opcode o, m => effect valid o m
  | .data d, m => some (pushed d :: m)

/-- What plain pieces one after another do to the main stack. -/
def effects (valid : Checker) (ps : List Piece) (m : Stack) : Option Stack :=
  ps.foldlM (fun m p => effectOf valid p m) m

/-- Without pieces nothing changes. -/
@[simp]
theorem effects_nil (valid : Checker) (m : Stack) : effects valid [] m = some m := rfl

/-- The first piece, and then the rest. -/
@[simp]
theorem effects_cons (valid : Checker) (p : Piece) (ps : List Piece) (m : Stack) :
    effects valid (p :: ps) m = (effectOf valid p m).bind (effects valid ps) := rfl

/-- The number of opcodes that pieces count for. -/
def totalCost (ps : List Piece) : Nat := (ps.map cost).sum

private theorem totalCost_cons (p : Piece) (ps : List Piece) :
    totalCost (p :: ps) = cost p + totalCost ps := rfl

/-- A plain piece acts by its effect in code that runs, and not at all elsewhere. -/
theorem act_plain (valid : Checker) (h : isPlain p = true) (s : State) :
    act valid s p = if s.running then s.onMain (effectOf valid p) else .ok s := by
  cases p with
  | opcode o => exact exec_plain valid h s
  | data d =>
    rw [act]
    split <;> rfl

/-- A disabled opcode has no effect on any stack. -/
theorem effectOf_disabled (valid : Checker) (h : isDisabled p = true) (m : Stack) :
    effectOf valid p m = none := by
  cases p with
  | opcode o => cases o <;> first | rfl | cases h
  | data d => cases h

/-- What a piece that pushes an item does. -/
structure IsPush (p : Piece) (v : Bytes) : Prop where
  plain : isPlain p = true
  cost : cost p = 0
  enabled : isDisabled p = false
  effect : ∀ valid m, effectOf valid p m = some (v :: m)

/-- A piece that has an item pushes it. -/
theorem isPush_of_itemOf? {v : Bytes} (h : itemOf? p = some v) : IsPush p v := by
  cases p with
  | data d =>
    cases h
    exact ⟨rfl, rfl, rfl, fun _ _ => rfl⟩
  | opcode o =>
    cases o with
    | small n =>
      cases h
      exact ⟨rfl, if_neg (lastPush_lt_small n), rfl, fun _ _ => rfl⟩
    | _ => cases h

/-- A plain piece in code that runs. -/
theorem stepPiece_plain (valid : Checker) (hp : isPlain p = true) (hr : s.running = true)
    (t : State) :
    stepPiece valid s p = .ok t ↔
      ∃ m, effectOf valid p s.main = some m ∧ (cost p = 0 ∨ s.ops + cost p ≤ maxOps) ∧
        m.length + s.alt.length ≤ maxItems ∧ t = { s with main := m, ops := s.ops + cost p } := by
  have hr' : State.running { s with ops := s.ops + cost p } = true := hr
  rw [stepPiece_eq_ok_iff, act_plain valid hp, if_pos hr', onMain_iff]
  constructor
  · rintro ⟨-, hc, ⟨m, he, rfl⟩, hb⟩
    exact ⟨m, he, hc, hb, rfl⟩
  · rintro ⟨m, he, hc, hb, rfl⟩
    refine ⟨?_, hc, ⟨m, he, rfl⟩, hb⟩
    by_contra hd
    rw [effectOf_disabled valid (Bool.eq_true_of_not_eq_false hd)] at he
    cases he

/-- A plain piece in code that does not run. -/
theorem stepPiece_plain_skipped (valid : Checker) (hp : isPlain p = true) (hr : s.running = false)
    (t : State) :
    stepPiece valid s p = .ok t ↔
      isDisabled p = false ∧ (cost p = 0 ∨ s.ops + cost p ≤ maxOps) ∧
        s.main.length + s.alt.length ≤ maxItems ∧ t = { s with ops := s.ops + cost p } := by
  have hr' : ¬ State.running { s with ops := s.ops + cost p } = true := Bool.eq_false_iff.mp hr
  rw [stepPiece_eq_ok_iff, act_plain valid hp, if_neg hr']
  constructor
  · rintro ⟨hd, hc, ht, hb⟩
    cases ht
    exact ⟨hd, hc, hb, rfl⟩
  · rintro ⟨hd, hc, hb, rfl⟩
    exact ⟨hd, hc, rfl, hb⟩

/-- Plain pieces in code that runs. -/
theorem runPieces_plain (valid : Checker) {ps : List Piece} (hp : ∀ p ∈ ps, isPlain p = true)
    (hr : s.running = true) (h : runPieces valid s ps = .ok t) :
    ∃ m, effects valid ps s.main = some m ∧
      (totalCost ps = 0 ∨ s.ops + totalCost ps ≤ maxOps) ∧
      (ps ≠ [] → m.length + s.alt.length ≤ maxItems) ∧
      t = { s with main := m, ops := s.ops + totalCost ps } := by
  induction ps generalizing s with
  | nil =>
    cases h
    exact ⟨_, rfl, .inl rfl, fun h => absurd rfl h, rfl⟩
  | cons p ps ih =>
    rw [runPieces_cons] at h
    obtain ⟨u, hu, h⟩ := bind_eq_ok_iff.mp h
    obtain ⟨m, he, hc, hb, rfl⟩ := (stepPiece_plain valid (hp p List.mem_cons_self) hr u).mp hu
    have hr' : State.running { s with main := m, ops := s.ops + cost p } = true := hr
    obtain ⟨m', he', hc', hb', rfl⟩ := ih (fun q hq => hp q (List.mem_cons_of_mem _ hq)) hr' h
    refine ⟨m', ?_, ?_, ?_, ?_⟩
    · rw [effects_cons, he]
      exact he'
    · rw [totalCost_cons]
      dsimp only at hc'
      omega
    · intro _
      cases ps with
      | nil =>
        cases he'
        exact hb
      | cons q ps => exact hb' (List.cons_ne_nil _ _)
    · rw [totalCost_cons, ← Nat.add_assoc]

/-- Plain pieces in code that does not run. -/
theorem runPieces_plain_skipped (valid : Checker) {ps : List Piece}
    (hp : ∀ p ∈ ps, isPlain p = true) (hr : s.running = false) (h : runPieces valid s ps = .ok t) :
    (∀ p ∈ ps, isDisabled p = false) ∧ (totalCost ps = 0 ∨ s.ops + totalCost ps ≤ maxOps) ∧
      (ps ≠ [] → s.main.length + s.alt.length ≤ maxItems) ∧
      t = { s with ops := s.ops + totalCost ps } := by
  induction ps generalizing s with
  | nil =>
    cases h
    exact ⟨nofun, .inl rfl, fun h => absurd rfl h, rfl⟩
  | cons p ps ih =>
    rw [runPieces_cons] at h
    obtain ⟨u, hu, h⟩ := bind_eq_ok_iff.mp h
    obtain ⟨hd, hc, hb, rfl⟩ := (stepPiece_plain_skipped valid (hp p List.mem_cons_self) hr u).mp hu
    have hr' : State.running { s with ops := s.ops + cost p } = false := hr
    obtain ⟨hd', hc', -, rfl⟩ := ih (fun q hq => hp q (List.mem_cons_of_mem _ hq)) hr' h
    refine ⟨List.forall_mem_cons.mpr ⟨hd, hd'⟩, ?_, fun _ => hb, ?_⟩
    · rw [totalCost_cons]
      dsimp only at hc'
      omega
    · rw [totalCost_cons, ← Nat.add_assoc]

namespace Refines

variable {old : List Piece}

/-- Behind a front of plain pieces, a run of plain pieces may be exchanged for one plain piece that
does the same to every stack that the front leaves, and counts for no more. -/
theorem of_effects (front : List Piece) {new : Piece} (hf : ∀ p ∈ front, isPlain p = true)
    (hp : ∀ p ∈ old, isPlain p = true) (hn : isPlain new = true) (hc : cost new ≤ totalCost old)
    (hne : old ≠ []) (hd : isDisabled new = true → ∃ p ∈ old, isDisabled p = true)
    (h : ∀ valid m u m', effects valid front m = some u → effects valid old u = some m' →
      effectOf valid new u = some m') : Refines (front ++ old) (front ++ [new]) := by
  intro valid s t ht
  rw [runPieces_append] at ht
  obtain ⟨u, hu, ht⟩ := bind_eq_ok_iff.mp ht
  suffices hnew : ∃ t', stepPiece valid u new = .ok t' ∧ t'.Within t by
    obtain ⟨t', ht', hw⟩ := hnew
    refine ⟨t', ?_, hw⟩
    rw [runPieces_append]
    exact bind_eq_ok_iff.mpr ⟨u, hu, bind_eq_ok_iff.mpr ⟨t', ht', rfl⟩⟩
  cases hr : s.running with
  | true =>
    obtain ⟨m, he, -, -, rfl⟩ := runPieces_plain valid hf hr hu
    have hr' : State.running { s with main := m, ops := s.ops + totalCost front } = true := hr
    obtain ⟨m', he', hops, hb, rfl⟩ := runPieces_plain valid hp hr' ht
    refine ⟨_, (stepPiece_plain valid hn hr' _).mpr
      ⟨m', h valid _ _ _ he he', ?_, hb hne, rfl⟩, rfl, rfl, rfl, Nat.add_le_add_left hc _⟩
    omega
  | false =>
    obtain ⟨-, -, -, rfl⟩ := runPieces_plain_skipped valid hf hr hu
    have hr' : State.running { s with ops := s.ops + totalCost front } = false := hr
    obtain ⟨hdis, hops, hb, rfl⟩ := runPieces_plain_skipped valid hp hr' ht
    have hnew : isDisabled new = false := by
      by_contra hno
      obtain ⟨p, hmem, htrue⟩ := hd (Bool.eq_true_of_not_eq_false hno)
      rw [hdis p hmem] at htrue
      cases htrue
    refine ⟨_, (stepPiece_plain_skipped valid hn hr' _).mpr ⟨hnew, ?_, hb hne, rfl⟩,
      rfl, rfl, rfl, Nat.add_le_add_left hc _⟩
    omega

/-- A run of plain pieces that changes no stack may be left out. -/
theorem of_effects_nil (hp : ∀ p ∈ old, isPlain p = true)
    (h : ∀ valid m m', effects valid old m = some m' → m' = m) : Refines old [] := by
  intro valid s t ht
  refine ⟨s, rfl, ?_⟩
  cases hr : s.running with
  | true =>
    obtain ⟨m, he, -, -, rfl⟩ := runPieces_plain valid hp hr ht
    rw [h valid _ _ he]
    exact ⟨rfl, rfl, rfl, Nat.le_add_right _ _⟩
  | false =>
    obtain ⟨-, -, -, rfl⟩ := runPieces_plain_skipped valid hp hr ht
    exact ⟨rfl, rfl, rfl, Nat.le_add_right _ _⟩

/-- Pieces with a disabled opcode among them do not run to their end. -/
theorem of_disabled {p : Piece} (hp : p ∈ old) (hd : isDisabled p = true) (new : List Piece) :
    Refines old new := by
  intro valid s t ht
  obtain ⟨front, back, rfl⟩ := List.append_of_mem hp
  rw [runPieces_append] at ht
  obtain ⟨u, -, ht⟩ := bind_eq_ok_iff.mp ht
  rw [runPieces_cons, stepPiece, if_pos hd] at ht
  cases ht

end Refines

end Engine

end NamedStack
