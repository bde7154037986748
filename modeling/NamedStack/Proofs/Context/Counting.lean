import NamedStack.Context.Routing
import NamedStack.Proofs.Context.Scan

/-!
# Which steps count for the height

The height in front of a position is a sum over the steps before it, in which the arms that are over
do not all count: for a conditional that has ended its first arm stands for both, and for one that
is open in its second arm only that one counts. How this changes with each step of a scan.
-/

namespace NamedStack

/-! ### Sums over positions -/

open scoped Classical in
/-- The sum over the positions of a range that satisfy a test. -/
noncomputable def total (P : Nat → Prop) (δ : Nat → Int) (lo hi : Nat) : Int :=
  ∑ i ∈ Finset.Ico lo hi, if P i then δ i else 0

section

variable {P R : Nat → Prop} {δ : Nat → Int} {lo mid hi : Nat}

/-- Equal tests give equal sums. -/
theorem total_congr (h : ∀ i, lo ≤ i → i < hi → (P i ↔ R i)) :
    total P δ lo hi = total R δ lo hi := by
  refine Finset.sum_congr rfl fun i hmem => ?_
  rw [Finset.mem_Ico] at hmem
  classical exact if_congr (h i hmem.1 hmem.2) rfl rfl

/-- One position more, which counts. -/
theorem total_succ (hle : lo ≤ hi) (h : P hi) :
    total P δ lo (hi + 1) = total P δ lo hi + δ hi := by
  rw [total, Finset.sum_Ico_succ_top hle, if_pos h]
  rfl

/-- Sums over ranges next to each other. -/
theorem total_add (h : lo ≤ mid) (h' : mid ≤ hi) :
    total P δ lo mid + total P δ mid hi = total P δ lo hi :=
  Finset.sum_Ico_consecutive _ h h'

/-- Steps that add nothing. -/
theorem total_eq_zero (h : ∀ i, lo ≤ i → i < hi → P i → δ i = 0) : total P δ lo hi = 0 := by
  refine Finset.sum_eq_zero fun i hmem => ?_
  rw [Finset.mem_Ico] at hmem
  split
  · next hp => exact h i hmem.1 hmem.2 hp
  · rfl

end

namespace Branch.Scan

/-! ### Which steps count -/

/-- Whether the branch at a place takes a position out of the height: the arm is over, and the other
arm of its conditional stands for both. -/
def Drops (s : Scan) (k i : Nat) : Prop :=
  ∃ b : Branch, s.branches[k]? = some b ∧ b.contains i = true ∧
    (b.isTrue = true → ∃ j ∈ s.opened, b.sibling = some j)

/-- Whether a position adds to the height. -/
def Counts (s : Scan) (i : Nat) : Prop := ∀ k, ¬ s.Drops k i

/-- Whether a position adds to the height as far as the other branches are concerned. -/
def CountsBut (s : Scan) (k i : Nat) : Prop := ∀ j, j ≠ k → ¬ s.Drops j i

/-- Whether a position lies in a second arm that is nested deeper. -/
def Inner (s : Scan) (n i : Nat) : Prop :=
  ∃ (k : Nat) (b : Branch), s.branches[k]? = some b ∧ n < b.nest ∧ b.isTrue = false ∧
    b.contains i = true

/-- What an arm adds to the height. -/
noncomputable def armTotal (s : Scan) (δ : Nat → Int) (b : Branch) : Int :=
  total (fun i => ¬ s.Inner b.nest i) δ b.start (b.stop.getD b.start)

/-- An arm contains the positions from its start to its end, if it has one. -/
theorem contains_iff (b : Branch) (i : Nat) :
    b.contains i = true ↔ ∃ x, b.stop = some x ∧ b.start ≤ i ∧ i < x := by
  unfold Branch.contains
  cases b.stop with
  | none => simp
  | some x => simp

variable {s : Scan} {p c : Nat} {cs : List Nat} {b : Branch}

private theorem not_contains_of_open (h : b.stop = none) (i : Nat) : ¬ b.contains i = true := by
  rw [contains_iff]
  rintro ⟨x, hx, -⟩
  cases h.symm.trans hx

variable {i : Nat}

private theorem ne_of_contains {k : Nat} {t : Branch} (hb : s.branches[c]? = some b)
    (hstop : b.stop = none) (ht : s.branches[k]? = some t) (hi : t.contains i = true) : k ≠ c := by
  obtain ⟨x, hx, -⟩ := (contains_iff t i).mp hi
  exact ne_of_stop hb hstop ht hx

private theorem contains_ended {k : Nat} {t : Branch} {sibling endIf : Option Nat}
    (hb : s.branches[c]? = some b) (hstop : b.stop = none) (ht : s.branches[k]? = some t) :
    Branch.contains { t with stop := if k = c then some p else t.stop, sibling, endIf } i = true ↔
      (k = c ∧ b.start ≤ i ∧ i < p) ∨ t.contains i = true := by
  by_cases hk : k = c
  · subst hk
    cases hb.symm.trans ht
    simp [contains_iff, hstop]
  · simp [contains_iff, hk]

/-- A new arm drops nothing. -/
theorem drops_opens (h : Sound s p) (k i : Nat) :
    (s.openArm p).Drops k i ↔ s.Drops k i := by
  have hlook := lookup_open s p
  constructor
  · rintro ⟨b, hb, hi, hsib⟩
    rcases (hlook k b).mp hb with hb | ⟨-, rfl⟩
    · refine ⟨b, hb, hi, fun htrue => ?_⟩
      obtain ⟨j, hj, hsib⟩ := hsib htrue
      obtain ⟨b', hb', -⟩ := h.linked k b j hb htrue hsib
      have hlt := (List.getElem?_eq_some_iff.mp hb').1
      exact ⟨j, (List.mem_cons.mp hj).resolve_left (Nat.ne_of_lt hlt), hsib⟩
    · exact absurd hi (not_contains_of_open rfl i)
  · rintro ⟨b, hb, hi, hsib⟩
    refine ⟨b, (hlook k b).mpr (.inl hb), hi, fun htrue => ?_⟩
    obtain ⟨j, hj, hsib⟩ := hsib htrue
    exact ⟨j, .tail _ hj, hsib⟩

/-- A first arm that gets a partner is dropped as well. -/
theorem drops_splits (h : Sound s p) (ho : s.opened = c :: cs)
    (hb : s.branches[c]? = some b) (hfirst : b.isTrue = true) (k i : Nat) :
    Drops { branches := splitAt s.branches c p b, opened := s.branches.length :: cs } k i ↔
      s.Drops k i ∨ k = c ∧ b.start ≤ i ∧ i < p := by
  obtain ⟨_, hstop, -⟩ := h.innermost ho hb
  have hlook := lookup_split (i := p) hb
  constructor
  · rintro ⟨d, hd, hi, hsib⟩
    rcases (hlook k d).mp hd with ⟨t, ht, rfl⟩ | ⟨-, rfl⟩
    · rcases (contains_ended hb hstop ht).mp hi with hwithin | hi
      · exact .inr hwithin
      · simp only [if_neg (ne_of_contains hb hstop ht hi)] at hsib
        refine .inl ⟨t, ht, hi, fun htrue => ?_⟩
        obtain ⟨j, hj, hsib⟩ := hsib htrue
        obtain ⟨b', hb', hfalse, -⟩ := h.linked k t j ht htrue hsib
        have hlt := (List.getElem?_eq_some_iff.mp hb').1
        have hmem := (List.mem_cons.mp hj).resolve_left (Nat.ne_of_lt hlt)
        exact ⟨j, ho ▸ .tail _ hmem, hsib⟩
    · exact absurd hi (not_contains_of_open rfl i)
  · rintro (⟨t, ht, hi, hsib⟩ | ⟨rfl, hi⟩)
    · have hk := ne_of_contains hb hstop ht hi
      refine ⟨t, (hlook k t).mpr (.inl ⟨t, ht, by simp [hk]⟩), hi, fun htrue => ?_⟩
      obtain ⟨j, hj, hsib⟩ := hsib htrue
      obtain ⟨b', hb', hfalse, -⟩ := h.linked k t j ht htrue hsib
      rw [ho] at hj
      refine ⟨j, .tail _ ((List.mem_cons.mp hj).resolve_left ?_), hsib⟩
      rintro rfl
      cases hb.symm.trans hb'
      cases hfirst.symm.trans hfalse
    · refine ⟨_, (hlook k _).mpr (.inl ⟨b, hb, rfl⟩), ?_, fun _ => ⟨_, .head _, if_pos rfl⟩⟩
      exact (contains_ended hb hstop hb).mpr (.inl ⟨rfl, hi⟩)

/-- But for the arm that is split, the same positions count as before. -/
theorem countsBut_splits (h : Sound s p) (ho : s.opened = c :: cs)
    (hb : s.branches[c]? = some b) (hfirst : b.isTrue = true) (i : Nat) :
    CountsBut { branches := splitAt s.branches c p b, opened := s.branches.length :: cs } c i ↔
      s.Counts i := by
  obtain ⟨_, hstop, -⟩ := h.innermost ho hb
  have hdrops (k : Nat) := drops_splits h ho hb hfirst k i
  constructor
  · rintro hcounts k ⟨d, hd, hi, hsib⟩
    exact hcounts k (ne_of_contains hb hstop hd hi) ((hdrops k).mpr (.inl ⟨d, hd, hi, hsib⟩))
  · intro hcounts k hkc hk
    rcases (hdrops k).mp hk with hk | ⟨rfl, -⟩
    · exact hcounts k hk
    · exact hkc rfl

/-- An arm that ends is dropped if it is a second one, and then its partner is not any more. -/
theorem drops_closes (h : Sound s p) (ho : s.opened = c :: cs)
    (hb : s.branches[c]? = some b) (k i : Nat) :
    Drops { branches := closeAt s.branches c p b, opened := cs } k i ↔
      (k = c ∧ b.isTrue = false ∧ b.start ≤ i ∧ i < p) ∨ (b.sibling ≠ some k ∧ s.Drops k i) := by
  obtain ⟨_, hstop, -, -, -, harm, hrest⟩ := h.innermost ho hb
  have hlook := lookup_close (i := p) hb (harm.sibling_ne_open hb hstop)
  have hchain := h.chain
  rw [ho] at hchain
  have hcs : c ∉ cs := by
    intro hc
    obtain ⟨b', _, hb', -⟩ := hrest.mem hc
    exact (hchain.apart_of_mem hc hb hb').1 rfl
  constructor
  · rintro ⟨d, hd, hi, hsib⟩
    obtain ⟨t, ht, rfl⟩ := (hlook k d).mp hd
    rcases (contains_ended hb hstop ht).mp hi with ⟨rfl, hwithin⟩ | hi
    · cases hb.symm.trans ht
      refine .inl ⟨rfl, ?_, hwithin⟩
      -- a first arm that is closed has no partner
      cases harm with
      | first htrue hnone =>
        obtain ⟨j, -, hj⟩ := hsib htrue
        cases hnone.symm.trans hj
      | second hfalse => exact hfalse
    · refine .inr ⟨fun hpartner => ?_, t, ht, hi, fun htrue => ?_⟩
      · -- the partner of the closed arm counts again
        cases harm with
        | first _ hnone => cases hnone.symm.trans hpartner
        | second _ hsome ht' htrue _ _ hback =>
          cases hsome.symm.trans hpartner
          cases ht.symm.trans ht'
          obtain ⟨j, hj, hsib⟩ := hsib htrue
          cases hback.symm.trans hsib
          exact hcs hj
      · obtain ⟨j, hj, hsib⟩ := hsib htrue
        exact ⟨j, ho ▸ .tail _ hj, hsib⟩
  · rintro (⟨rfl, hfalse, hi⟩ | ⟨hpartner, t, ht, hi, hsib⟩)
    · refine ⟨_, (hlook k _).mpr ⟨b, hb, rfl⟩, ?_, fun htrue => ?_⟩
      · exact (contains_ended hb hstop hb).mpr (.inl ⟨rfl, hi⟩)
      · cases hfalse.symm.trans htrue
    · refine ⟨_, (hlook k _).mpr ⟨t, ht, rfl⟩, ?_, fun htrue => ?_⟩
      · exact (contains_ended hb hstop ht).mpr (.inr hi)
      · obtain ⟨j, hj, hsib⟩ := hsib htrue
        rw [ho] at hj
        refine ⟨j, (List.mem_cons.mp hj).resolve_left ?_, hsib⟩
        rintro rfl
        obtain ⟨b', hb', -, hback⟩ := h.linked k t j ht htrue hsib
        cases hb.symm.trans hb'
        exact hpartner hback

/-- A new arm is no second one. -/
theorem inner_opens (n i : Nat) : (s.openArm p).Inner n i ↔ s.Inner n i := by
  have hlook := lookup_open s p
  constructor
  · rintro ⟨k, d, hd, hrest⟩
    rcases (hlook k d).mp hd with hd | ⟨-, rfl⟩
    · exact ⟨k, d, hd, hrest⟩
    · cases hrest.2.1
  · rintro ⟨k, d, hd, hrest⟩
    exact ⟨k, d, (hlook k d).mpr (.inl hd), hrest⟩

/-- Neither is one that has just got a partner. -/
theorem inner_splits (hb : s.branches[c]? = some b) (hfirst : b.isTrue = true) (n i : Nat) :
    Inner { branches := splitAt s.branches c p b, opened := s.branches.length :: cs } n i ↔
      s.Inner n i := by
  have hlook := lookup_split (i := p) hb
  constructor
  · rintro ⟨k, d, hd, hn, hfalse, hi⟩
    rcases (hlook k d).mp hd with ⟨t, ht, rfl⟩ | ⟨-, rfl⟩
    · have hk : k ≠ c := by
        rintro rfl
        cases hb.symm.trans ht
        cases hfirst.symm.trans hfalse
      simp only [if_neg hk] at hi
      exact ⟨k, t, ht, hn, hfalse, hi⟩
    · exact absurd hi (not_contains_of_open rfl i)
  · rintro ⟨k, t, ht, hn, hfalse, hi⟩
    have hk : k ≠ c := by
      rintro rfl
      cases hb.symm.trans ht
      cases hfirst.symm.trans hfalse
    exact ⟨k, t, (hlook k t).mpr (.inl ⟨t, ht, by simp [hk]⟩), hn, hfalse, hi⟩

/-- A second arm that ends lies inside of those around it. -/
theorem inner_closes (h : Sound s p) (ho : s.opened = c :: cs)
    (hb : s.branches[c]? = some b) (n i : Nat) :
    Inner { branches := closeAt s.branches c p b, opened := cs } n i ↔
      s.Inner n i ∨ n < b.nest ∧ b.isTrue = false ∧ b.start ≤ i ∧ i < p := by
  obtain ⟨_, hstop, -, -, -, harm, -⟩ := h.innermost ho hb
  have hlook := lookup_close (i := p) hb (harm.sibling_ne_open hb hstop)
  constructor
  · rintro ⟨k, d, hd, hn, hfalse, hi⟩
    obtain ⟨t, ht, rfl⟩ := (hlook k d).mp hd
    rcases (contains_ended hb hstop ht).mp hi with ⟨rfl, hwithin⟩ | hi
    · cases hb.symm.trans ht
      exact .inr ⟨hn, hfalse, hwithin⟩
    · exact .inl ⟨k, t, ht, hn, hfalse, hi⟩
  · rintro (⟨k, t, ht, hn, hfalse, hi⟩ | ⟨hn, hfalse, hi⟩)
    · refine ⟨k, _, (hlook k _).mpr ⟨t, ht, rfl⟩, hn, hfalse, ?_⟩
      exact (contains_ended hb hstop ht).mpr (.inr hi)
    · refine ⟨c, _, (hlook c _).mpr ⟨b, hb, rfl⟩, hn, hfalse, ?_⟩
      exact (contains_ended hb hstop hb).mpr (.inl ⟨rfl, hi⟩)

/-- A position that is being reached counts. -/
theorem Sound.counts_here (h : Sound s p) : s.Counts p := by
  rintro k ⟨b, hb, hi, -⟩
  obtain ⟨x, hx, -, hlt⟩ := (contains_iff b p).mp hi
  have := h.stopped k b x hb hx
  omega

/-- In the innermost open arm everything counts but the second arms inside of it. -/
theorem Sound.counts_iff_not_inner (h : Sound s p) (ho : s.opened = c :: cs)
    (hb : s.branches[c]? = some b) (hi : b.start ≤ i) : s.Counts i ↔ ¬ s.Inner b.nest i := by
  obtain ⟨first, -, -, -, -, harm, hrest⟩ := h.innermost ho hb
  constructor
  · rintro hcounts ⟨k, t, ht, -, hfalse, hcont⟩
    refine hcounts k ⟨t, ht, hcont, fun htrue => ?_⟩
    cases hfalse.symm.trans htrue
  · rintro hinner k ⟨t, ht, hcont, hsib⟩
    obtain ⟨x, hx, hlo, hhi⟩ := (contains_iff t i).mp hcont
    cases htrue : t.isTrue with
    | false =>
      rcases h.apart k t x c b ht hx (ho ▸ .head _) hb with ⟨-, hnest⟩ | hlt
      · exact hinner ⟨k, t, ht, hnest, htrue, hcont⟩
      · omega
    | true =>
      -- the first arm of an open conditional ends in front of the innermost open arm
      obtain ⟨j, hj, hsib⟩ := hsib htrue
      have hback : ∀ {d : Branch} {first' : Nat}, s.branches[j]? = some d → d.start ≤ b.start →
          OpenArm s j d first' → False := by
        intro d first' hd hle harm'
        obtain ⟨d', hd', -, hback⟩ := h.linked k t j ht htrue hsib
        cases hd.symm.trans hd'
        cases harm' with
        | first _ hnone => cases hback.symm.trans hnone
        | second _ hsome ht' _ hx' _ _ hstart =>
          cases hback.symm.trans hsome
          cases ht.symm.trans ht'
          cases hx.symm.trans hx'
          omega
      rw [ho] at hj
      rcases List.mem_cons.mp hj with rfl | hj
      · exact hback hb (Nat.le_refl _) harm
      · obtain ⟨d, first', hd, -, -, -, hle, harm'⟩ := hrest.mem hj
        exact hback hd (hle.trans harm.le_start) harm'

end Branch.Scan

end NamedStack
