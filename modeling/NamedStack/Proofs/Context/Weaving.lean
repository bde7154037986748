import NamedStack.Proofs.Context.Positions

/-!
# How arms lie while a program is scanned

The branches of a program are the arms of its conditionals, in the order of their markers. While a
scan goes along the program some of them are still open; an arm that ends is the innermost one, so
those that are over and lie behind its start lie inside of it, with a deeper nesting. Each step
keeps the ranges, the nesting, the partners and the markers of the arms as they are said here.
-/

namespace NamedStack

namespace Branch

/-! ### Ranges -/

/-- Whether arms that end at positions lie apart, or the one with the deeper nesting lies inside of
the other. -/
def Laminar (b : Branch) (x : Nat) (b' : Branch) (x' : Nat) : Prop :=
  x ≤ b'.start ∨ x' ≤ b.start ∨
    b.nest < b'.nest ∧ b.start ≤ b'.start ∧ x' ≤ x ∨ b'.nest < b.nest ∧ b'.start ≤ b.start ∧ x ≤ x'

private theorem Laminar.symm {b b' : Branch} {x x' : Nat} (h : Laminar b x b' x') :
    Laminar b' x' b x := by
  unfold Laminar at h ⊢
  omega

namespace Scan

variable {s s' : Scan} {p : Nat} {instr : Instr}

/-- An arm behind a step: it was there before and is still as it was, or it was the innermost open
one and has ended, or it is new. -/
inductive Became (s : Scan) (p k : Nat) (d : Branch) : Prop
  | kept {b : Branch} (hb : s.branches[k]? = some b) (hstart : d.start = b.start)
      (hmarker : d.marker = b.marker) (hnest : d.nest = b.nest) (hstop : d.stop = b.stop)
  | ended {b : Branch} {cs : List Nat} (hb : s.branches[k]? = some b) (ho : s.opened = k :: cs)
      (hstart : d.start = b.start) (hmarker : d.marker = b.marker) (hnest : d.nest = b.nest)
      (hopen : b.stop = none) (hstop : d.stop = some p)
  | new (hk : k = s.branches.length) (hstart : d.start = p + 1) (hmarker : d.marker = p)
      (hstop : d.stop = none)

variable {k c : Nat} {b : Branch} {ops : List Instr}

private theorem Moves.became (hs : Sound s p) (hm : Moves s p instr s') {d : Branch}
    (hd : s'.branches[k]? = some d) : Became s p k d := by
  cases hm with
  | pass => exact .kept hd rfl rfl rfl rfl
  | opens =>
    rcases (lookup_append s.branches _ k d).mp hd with hd | ⟨hk, rfl⟩
    · exact .kept hd rfl rfl rfl rfl
    · exact .new hk rfl rfl rfl
  | @splits c cs b ho hb hfirst =>
    obtain ⟨_, hopen, -⟩ := hs.innermost ho hb
    rcases (lookup_split hb k d).mp hd with ⟨t, ht, rfl⟩ | ⟨hk, rfl⟩
    · by_cases hk : k = c
      · subst hk
        cases hb.symm.trans ht
        exact .ended hb ho rfl rfl rfl hopen (if_pos rfl)
      · exact .kept ht rfl rfl rfl (if_neg hk)
    · exact .new hk rfl rfl rfl
  | @closes c cs b ho hb =>
    obtain ⟨_, hopen, -, -, -, harm, -⟩ := hs.innermost ho hb
    obtain ⟨t, ht, rfl⟩ := (lookup_close hb (harm.sibling_ne_open hb hopen) k d).mp hd
    by_cases hk : k = c
    · subst hk
      cases hb.symm.trans ht
      exact .ended hb ho rfl rfl rfl hopen (if_pos rfl)
    · exact .kept ht rfl rfl rfl (if_neg hk)

/-- What holds of the ranges of arms. -/
structure Ranged (s : Scan) : Prop where
  marked : ∀ (k : Nat) (b : Branch), s.branches[k]? = some b → b.start = b.marker + 1
  ordered : ∀ (k : Nat) (b : Branch) (x : Nat), s.branches[k]? = some b → b.stop = some x →
    b.start ≤ x
  laminar : ∀ (j k : Nat) (b b' : Branch) (x x' : Nat), j ≠ k → s.branches[j]? = some b →
    s.branches[k]? = some b' → b.stop = some x → b'.stop = some x' → Laminar b x b' x'

/-- A step keeps what holds of the ranges. -/
theorem Ranged.step (h : Ranged s) (hs : Sound s p) (hm : Moves s p instr s') : Ranged s' := by
  constructor
  · intro k d hd
    cases hm.became hs hd with
    | kept hb hstart hmarker => rw [hstart, hmarker, h.marked k _ hb]
    | ended hb _ hstart hmarker => rw [hstart, hmarker, h.marked k _ hb]
    | new _ hstart hmarker => rw [hstart, hmarker]
  · intro k d x hd hx
    cases hm.became hs hd with
    | kept hb hstart _ _ hstop => exact hstart ▸ h.ordered k _ x hb (hstop ▸ hx)
    | ended hb ho hstart _ _ _ hstop =>
      cases hstop.symm.trans hx
      obtain ⟨_, -, -, -, hle, -⟩ := hs.innermost ho hb
      exact hstart ▸ hle
    | new _ _ _ hstop => cases hstop.symm.trans hx
  · -- an arm that ends here has every arm that is over inside of it or in front of it
    have hends {j k x : Nat} {b b' d d' : Branch} {cs : List Nat} (hb : s.branches[j]? = some b)
        (hx : b.stop = some x) (hb' : s.branches[k]? = some b') (ho : s.opened = k :: cs)
        (hd : d.start = b.start ∧ d.nest = b.nest) (hd' : d'.start = b'.start ∧ d'.nest = b'.nest) :
        Laminar d x d' p := by
      have hlt := hs.stopped j b x hb hx
      have hapart := hs.apart j b x k b' hb hx (ho ▸ List.mem_cons_self) hb'
      unfold Laminar
      omega
    intro j k d d' x x' hne hd hd' hx hx'
    cases hm.became hs hd with
    | kept hb hstart _ hnest hstop =>
      cases hm.became hs hd' with
      | kept hb' hstart' _ hnest' hstop' =>
        have hold := h.laminar j k _ _ x x' hne hb hb' (hstop ▸ hx) (hstop' ▸ hx')
        unfold Laminar at hold ⊢
        rwa [hstart, hstart', hnest, hnest']
      | ended hb' ho hstart' _ hnest' _ hstop' =>
        cases hstop'.symm.trans hx'
        exact hends hb (hstop ▸ hx) hb' ho ⟨hstart, hnest⟩ ⟨hstart', hnest'⟩
      | new _ _ _ hstop' => cases hstop'.symm.trans hx'
    | ended hb ho hstart _ hnest _ hstop =>
      cases hstop.symm.trans hx
      cases hm.became hs hd' with
      | kept hb' hstart' _ hnest' hstop' =>
        exact (hends hb' (hstop' ▸ hx') hb ho ⟨hstart', hnest'⟩ ⟨hstart, hnest⟩).symm
      | ended _ ho' =>
        cases ho.symm.trans ho'
        exact absurd rfl hne
      | new _ _ _ hstop' => cases hstop'.symm.trans hx'
    | new _ _ _ hstop => cases hstop.symm.trans hx

/-! ### Nesting -/

/-- Whether an arm lies inside of one with the next smaller nesting, which does not end before it.
-/
def Enclosed (s : Scan) (b : Branch) : Prop :=
  ∃ (j : Nat) (b' : Branch), s.branches[j]? = some b' ∧ b'.nest + 1 = b.nest ∧ b'.start ≤ b.start ∧
    ∀ x', b'.stop = some x' → ∃ x, b.stop = some x ∧ x ≤ x'

/-- Whether every arm has a nesting, and lies inside of another one if that is not the least. -/
def Nested (s : Scan) : Prop :=
  ∀ (k : Nat) (b : Branch), s.branches[k]? = some b → 1 ≤ b.nest ∧ (1 < b.nest → s.Enclosed b)

private theorem Enclosed.step {d : Branch} (h : s.Enclosed b) (hs : Sound s p)
    (hm : Moves s p instr s') (hb : s.branches[k]? = some b) (hd : s'.branches[k]? = some d) :
    s'.Enclosed d := by
  obtain ⟨j, b', hb', hnest, hstart, hstop⟩ := h
  have hlater := Later.of_moves hs hm (Nat.le_refl p)
  obtain ⟨d₀, hd₀, -, hdstart, hdnest, hdover, -⟩ := hlater.kept k b hb
  cases hd₀.symm.trans hd
  obtain ⟨d', hd', -, hstart', hnest', hover', hopen'⟩ := hlater.kept j b' hb'
  refine ⟨j, d', hd', by omega, by omega, fun x' hx' => ?_⟩
  cases hb'stop : b'.stop with
  | some y =>
    obtain ⟨x, hx, hle⟩ := hstop y hb'stop
    cases (hover' y hb'stop).1.symm.trans hx'
    exact ⟨x, (hdover x hx).1, hle⟩
  | none =>
    cases hbstop : b.stop with
    | some x =>
      have hlt := hs.stopped k b x hb hbstop
      exact ⟨x, (hdover x hbstop).1, (hopen' hb'stop x' hx').trans' hlt.le⟩
    | none =>
      -- the arm around it is not the innermost one, so it cannot have ended
      have hmem := hs.unstopped k b hb hbstop
      cases hm.became hs hd' with
      | kept hb₀ _ _ _ hstop' =>
        cases hb'.symm.trans hb₀
        cases (hb'stop.symm.trans hstop'.symm).trans hx'
      | ended hb₀ ho =>
        obtain ⟨_, -, -, hinnermost, -⟩ := hs.innermost ho hb'
        obtain ⟨_, _, hb₁, -, -, hdeep, -⟩ := hs.chain.mem hmem
        cases hb.symm.trans hb₁
        rw [ho, List.length_cons] at hdeep
        omega
      | new hj => exact absurd (List.getElem?_eq_some_iff.mp hb').1 (hj ▸ Nat.lt_irrefl _)

/-- A step keeps the nesting. -/
theorem Nested.step (h : Nested s) (hs : Sound s p) (hm : Moves s p instr s') : Nested s' := by
  intro k d hd
  cases hb : s.branches[k]? with
  | some b =>
    obtain ⟨hpos, henclosed⟩ := h k b hb
    obtain ⟨d₀, hd₀, -, -, hnest, -⟩ := (Later.of_moves hs hm (Nat.le_refl p)).kept k b hb
    cases hd₀.symm.trans hd
    exact ⟨hnest ▸ hpos, fun hdeep => (henclosed (hnest ▸ hdeep)).step hs hm hb hd⟩
  | none =>
    cases hm with
    | pass => cases hb.symm.trans hd
    | opens =>
      rcases (lookup_append s.branches _ k d).mp hd with hd | ⟨-, rfl⟩
      · cases hb.symm.trans hd
      refine ⟨Nat.le_add_left _ _, fun hdeep => ?_⟩
      cases ho : s.opened with
      | nil => simp [ho] at hdeep
      | cons c cs =>
        obtain ⟨b, -, hb, -⟩ := hs.chain.mem (ho ▸ List.mem_cons_self : c ∈ s.opened)
        obtain ⟨_, hopen, -, hnest, hle, -⟩ := hs.innermost ho hb
        refine ⟨c, b, (lookup_append s.branches _ c b).mpr (.inl hb), ?_, Nat.le_succ_of_le hle, ?_⟩
        · rw [hnest]
          rfl
        · intro x hx
          cases hopen.symm.trans hx
    | @splits c cs b ho hc hfirst =>
      obtain ⟨_, hopen, -, -, hle, -⟩ := hs.innermost ho hc
      rcases (lookup_split hc k d).mp hd with ⟨t, ht, -⟩ | ⟨-, rfl⟩
      · cases hb.symm.trans ht
      obtain ⟨hpos, henclosed⟩ := h c b hc
      refine ⟨hpos, fun hdeep => ?_⟩
      obtain ⟨j, b', hb', hnest, hstart, hstop⟩ := henclosed hdeep
      have hj : j ≠ c := by
        rintro rfl
        cases hc.symm.trans hb'
        omega
      refine ⟨j, b', (lookup_split hc j b').mpr (.inl ⟨b', hb', by simp [hj]⟩), hnest,
        (hstart.trans hle).trans (Nat.le_succ p), fun x hx => ?_⟩
      obtain ⟨_, hx', -⟩ := hstop x hx
      cases hopen.symm.trans hx'
    | @closes c cs b ho hc =>
      have hlt := (List.getElem?_eq_some_iff.mp hd).1
      rw [length_closeAt] at hlt
      exact absurd (List.getElem?_eq_none_iff.mp hb) (Nat.not_le.mpr hlt)

/-! ### Partners -/

/-- What holds of the arms of a conditional, given the program: each of two names the other one, and
they end together, at a marker that closes a conditional. -/
structure Partnered (ops : List Instr) (s : Scan) : Prop where
  second : ∀ (k : Nat) (b : Branch), s.branches[k]? = some b → b.isTrue = false →
    b.sibling.isSome = true
  partner : ∀ (k : Nat) (b : Branch) (j : Nat), s.branches[k]? = some b → b.sibling = some j →
    ∃ b' : Branch, s.branches[j]? = some b' ∧ b'.sibling = some k ∧ b'.isTrue = !b.isTrue ∧
      b'.nest = b.nest ∧ b'.endIf = b.endIf ∧ (b.isTrue = true → b.stop = some b'.marker)
  half : ∀ (k : Nat) (b : Branch) (x : Nat), s.branches[k]? = some b → b.stop = some x →
    b.endIf = none → ∃ j ∈ s.opened, b.sibling = some j
  closed : ∀ (k : Nat) (b : Branch) (e : Nat), s.branches[k]? = some b → b.endIf = some e →
    ops[e]? = some (.op .opEndIf) ∧ ∃ x, b.stop = some x ∧ x ≤ e

private theorem Partnered.opens (h : Partnered ops s) : Partnered ops (s.openArm p) := by
  have hlook := lookup_open s p
  constructor
  · intro k d hd hsecond
    rcases (hlook k d).mp hd with hd | ⟨-, rfl⟩
    · exact h.second k d hd hsecond
    · cases hsecond
  · intro k d j hd hj
    rcases (hlook k d).mp hd with hd | ⟨-, rfl⟩
    · obtain ⟨d', hd', hrest⟩ := h.partner k d j hd hj
      exact ⟨d', (hlook j d').mpr (.inl hd'), hrest⟩
    · cases hj
  · intro k d x hd hx hend
    rcases (hlook k d).mp hd with hd | ⟨-, rfl⟩
    · obtain ⟨j, hj, hsib⟩ := h.half k d x hd hx hend
      exact ⟨j, List.mem_cons_of_mem _ hj, hsib⟩
    · cases hx
  · intro k d e hd he
    rcases (hlook k d).mp hd with hd | ⟨-, rfl⟩
    · exact h.closed k d e hd he
    · cases he

private theorem Partnered.not_sibling {t : Branch} (h : Partnered ops s)
    (hb : s.branches[c]? = some b) (hfirst : b.isTrue = true) (hopen : b.stop = none)
    (ht : s.branches[k]? = some t) : b.sibling = none ∧ t.sibling ≠ some c := by
  have hnone : b.sibling = none := by
    cases hsib : b.sibling with
    | none => rfl
    | some j =>
      obtain ⟨_, -, -, -, -, -, hstop⟩ := h.partner c b j hb hsib
      cases hopen.symm.trans (hstop hfirst)
  refine ⟨hnone, fun hsib => ?_⟩
  obtain ⟨b', hb', hback, -⟩ := h.partner k t c ht hsib
  cases hb.symm.trans hb'
  cases hnone.symm.trans hback

private theorem Partnered.splits {cs : List Nat} (h : Partnered ops s) (hs : Sound s p)
    (ho : s.opened = c :: cs) (hb : s.branches[c]? = some b) (hfirst : b.isTrue = true) :
    Partnered ops { branches := splitAt s.branches c p b, opened := s.branches.length :: cs } := by
  obtain ⟨_, hopen, hend, -⟩ := hs.innermost ho hb
  have hlook := lookup_split (i := p) hb
  have hsplit := (hlook c _).mpr (.inl ⟨b, hb, rfl⟩)
  rw [if_pos rfl, if_pos rfl] at hsplit
  have hnew := (hlook _ _).mpr (.inr ⟨rfl, rfl⟩)
  constructor
  · intro k d hd hsecond
    rcases (hlook k d).mp hd with ⟨t, ht, rfl⟩ | ⟨-, rfl⟩
    · by_cases hk : k = c
      · subst hk
        cases hb.symm.trans ht
        cases hfirst.symm.trans hsecond
      · simpa [hk] using h.second k t ht hsecond
    · rfl
  · intro k d j hd hj
    rcases (hlook k d).mp hd with ⟨t, ht, rfl⟩ | ⟨rfl, rfl⟩
    · by_cases hk : k = c
      · subst hk
        cases hb.symm.trans ht
        cases (if_pos rfl).symm.trans hj
        exact ⟨_, hnew, rfl, by simp [hfirst], rfl, hend.symm, fun _ => if_pos rfl⟩
      · have hj : t.sibling = some j := (if_neg hk).symm.trans hj
        obtain ⟨t', ht', hrest⟩ := h.partner k t j ht hj
        have hjc : j ≠ c := fun hjc => (h.not_sibling hb hfirst hopen ht).2 (hjc ▸ hj)
        refine ⟨t', (hlook j t').mpr (.inl ⟨t', ht', by simp [hjc]⟩), ?_⟩
        simpa [hk] using hrest
    · cases hj
      exact ⟨_, hsplit, rfl, by simp [hfirst], rfl, hend, nofun⟩
  · intro k d x hd hx hnone
    rcases (hlook k d).mp hd with ⟨t, ht, rfl⟩ | ⟨-, rfl⟩
    · by_cases hk : k = c
      · exact ⟨_, List.mem_cons_self, if_pos hk⟩
      · rw [if_neg hk] at hx
        obtain ⟨j, hj, hsib⟩ := h.half k t x ht hx hnone
        have hjc : j ≠ c := fun hjc => (h.not_sibling hb hfirst hopen ht).2 (hjc ▸ hsib)
        rw [ho] at hj
        exact ⟨j, List.mem_cons_of_mem _ ((List.mem_cons.mp hj).resolve_left hjc),
          (if_neg hk).trans hsib⟩
    · cases hx
  · intro k d e hd he
    rcases (hlook k d).mp hd with ⟨t, ht, rfl⟩ | ⟨-, rfl⟩
    · have hk : k ≠ c := by
        rintro rfl
        cases hb.symm.trans ht
        cases hend.symm.trans he
      simpa [hk] using h.closed k t e ht he
    · cases he

private theorem Partnered.closes {cs : List Nat} (h : Partnered ops s) (hs : Sound s p)
    (ho : s.opened = c :: cs) (hb : s.branches[c]? = some b) (hp : ops[p]? = some (.op .opEndIf)) :
    Partnered ops { branches := closeAt s.branches c p b, opened := cs } := by
  obtain ⟨_, hopen, -, -, -, harm, -⟩ := hs.innermost ho hb
  have hlook := lookup_close (i := p) hb (harm.sibling_ne_open hb hopen)
  -- an arm is closed if its partner is
  have hboth {j k : Nat} {t t' : Branch} (ht : s.branches[k]? = some t)
      (ht' : s.branches[j]? = some t') (hj : t.sibling = some j) (hk : t'.sibling = some k) :
      (k = c ∨ b.sibling = some k) → j = c ∨ b.sibling = some j := by
    rintro (rfl | hsib)
    · cases hb.symm.trans ht
      exact .inr hj
    · obtain ⟨t₀, ht₀, hback, -⟩ := h.partner c b k hb hsib
      cases ht.symm.trans ht₀
      cases hj.symm.trans hback
      exact .inl rfl
  constructor
  · intro k d hd hsecond
    obtain ⟨t, ht, rfl⟩ := (hlook k d).mp hd
    exact h.second k t ht hsecond
  · intro k d j hd hj
    obtain ⟨t, ht, rfl⟩ := (hlook k d).mp hd
    obtain ⟨t', ht', hback, hside, hnest, hend, hstop⟩ := h.partner k t j ht hj
    refine ⟨_, (hlook j _).mpr ⟨t', ht', rfl⟩, hback, hside, hnest, ?_, fun hfirst => ?_⟩
    · have hiff : (j = c ∨ b.sibling = some j) ↔ (k = c ∨ b.sibling = some k) :=
        ⟨hboth ht' ht hback hj, hboth ht ht' hj hback⟩
      simp only [hiff, hend]
    · have hk : k ≠ c := by
        rintro rfl
        cases hb.symm.trans ht
        cases hopen.symm.trans (hstop hfirst)
      exact (if_neg hk).trans (hstop hfirst)
  · intro k d x hd hx hnone
    obtain ⟨t, ht, rfl⟩ := (hlook k d).mp hd
    by_cases hclosed : k = c ∨ b.sibling = some k
    · cases (if_pos hclosed).symm.trans hnone
    · rw [if_neg hclosed] at hnone
      obtain ⟨hk, hsib⟩ := not_or.mp hclosed
      rw [if_neg hk] at hx
      obtain ⟨j, hj, hjsib⟩ := h.half k t x ht hx hnone
      refine ⟨j, ?_, hjsib⟩
      rw [ho] at hj
      refine (List.mem_cons.mp hj).resolve_left fun hjc => ?_
      subst hjc
      obtain ⟨b₀, hb₀, hback, -⟩ := h.partner k t j ht hjsib
      cases hb.symm.trans hb₀
      exact hsib hback
  · intro k d e hd he
    obtain ⟨t, ht, rfl⟩ := (hlook k d).mp hd
    by_cases hclosed : k = c ∨ b.sibling = some k
    · cases (if_pos hclosed).symm.trans he
      refine ⟨hp, ?_⟩
      by_cases hk : k = c
      · exact ⟨p, if_pos hk, Nat.le_refl p⟩
      · have hsib := hclosed.resolve_left hk
        cases harm with
        | first _ hnone => cases hnone.symm.trans hsib
        | @second j x t₀ _ hsib₀ ht₀ _ hx =>
          cases hsib₀.symm.trans hsib
          cases ht.symm.trans ht₀
          exact ⟨x, (if_neg hk).trans hx, (hs.stopped _ _ _ ht hx).le⟩
    · rw [if_neg hclosed] at he
      simpa [(not_or.mp hclosed).1] using h.closed k t e ht he

/-- A step keeps what holds of partners. -/
theorem Partnered.step (h : Partnered ops s) (hs : Sound s p) (hm : Moves s p instr s')
    (hp : ops[p]? = some instr) : Partnered ops s' := by
  cases hm with
  | pass => exact h
  | opens => exact h.opens
  | splits ho hb hfirst => exact h.splits hs ho hb hfirst
  | closes ho hb => exact h.closes hs ho hb hp

/-! ### Markers -/

/-- Whether an instruction opens an arm, and a first one. -/
def opensFirst? : Instr → Option Bool
  | .op .opIf | .op .opNotIf => some true
  | .op .opElse => some false
  | _ => none

/-- The positions of the markers that open an arm, each with whether it is a first arm. -/
def markers (ops : List Instr) : List (Nat × Bool) :=
  ops.zipIdx.filterMap fun p => (opensFirst? p.1).map fun first => (p.2, first)

/-- The markers of one instruction more. -/
theorem markers_concat (ops : List Instr) (i : Instr) :
    markers (ops ++ [i]) =
      markers ops ++ ((opensFirst? i).map fun first => (ops.length, first)).toList := by
  rw [markers, List.zipIdx_append, List.filterMap_append]
  cases h : opensFirst? i <;> simp [markers, h]

/-- A step opens the arm that its instruction says. -/
theorem Moves.map_marker (hs : Sound s p) (hm : Moves s p instr s') :
    s'.branches.map (fun b => (b.marker, b.isTrue)) =
      s.branches.map (fun b => (b.marker, b.isTrue)) ++
        ((opensFirst? instr).map fun first => (p, first)).toList := by
  cases hm with
  | pass hinstr =>
    have hnone : opensFirst? instr = none := by
      unfold opensFirst?
      split
      · cases hinstr _ rfl
      · cases hinstr _ rfl
      · cases hinstr _ rfl
      · rfl
    rw [hnone]
    exact (List.append_nil _).symm
  | opens ho =>
    rw [openArm, List.map_append]
    rcases ho with rfl | rfl <;> rfl
  | @splits c cs b ho hb hfirst =>
    obtain ⟨hc, rfl⟩ := List.getElem?_eq_some_iff.mp hb
    rw [splitAt, List.map_append, List.map_set]
    congr 1
    exact List.ext_getElem (by simp) fun k _ _ => by grind
  | @closes c cs b ho hb =>
    obtain ⟨_, hopen, -, -, -, harm, -⟩ := hs.innermost ho hb
    have hlook := lookup_close (i := p) hb (harm.sibling_ne_open hb hopen)
    rw [show opensFirst? (.op .opEndIf) = none from rfl]
    refine (List.ext_getElem? fun k => ?_).trans (List.append_nil _).symm
    rw [List.getElem?_map, List.getElem?_map]
    cases ht : s.branches[k]? with
    | some t => rw [(hlook k _).mpr ⟨t, ht, rfl⟩]; rfl
    | none =>
      rw [List.getElem?_eq_none_iff, ← length_closeAt s.branches c p b] at ht
      rw [List.getElem?_eq_none ht]

end Scan

end Branch

end NamedStack
