import NamedStack.Proofs.Resolve.Effects
import NamedStack.Proofs.Resolve.History

/-!
# The counts of a check of several signatures

Each context looks for the counts of a check again, so many instructions in front of it. The number
of keys stands directly in front of the check and stays there, but the number of signatures stands
in front of the keys, and a key that is read by name is replaced by other instructions. So what a
check says of its keys is kept by every pass, and what it says of its signatures is kept if no name
is read or written between the two counts.
-/

namespace NamedStack

/-! ### One context -/

/-- Whether a step with so many results has counts, and takes as many items as they say. -/
structure Step.Counts (r : Nat) (m : Multisig) (s : Step) : Prop where
  multisig : s.multisig = some m
  delta : s.delta = r - (3 + m.keys + m.sigs : Nat)
  args : s.args = (List.range (3 + m.keys + m.sigs)).map fun (k : Nat) => (k : Int) + 1

variable {steps : List Step} {i : Nat} {st : Step} {check : Opcode} {r : Nat} {m : Multisig}

private theorem Context.refine_check (hinstr : st.instr = .op check)
    (hr : check.multisigResults? = some r) :
    Context.refine steps i st = Context.refine.multisig steps i st r := by
  cases check with
  | checkMultiSig | checkMultiSigVerify =>
    cases hr
    simp only [Context.refine, hinstr]
    rfl
  | _ => cases hr

/-- A check whose counts are found has them. -/
theorem Context.counts_refine (hinstr : st.instr = .op check)
    (hr : check.multisigResults? = some r) (hm : Context.multisigAt? steps i = some m) :
    (Context.refine steps i st).Counts r m := by
  rw [Context.refine_check hinstr hr, Context.refine.multisig, hm]
  exact ⟨rfl, rfl, rfl⟩

/-- A check whose counts are not found stays as it is. -/
theorem Context.refine_of_multisigAt?_eq_none (hinstr : st.instr = .op check)
    (hr : check.multisigResults? = some r) (hm : Context.multisigAt? steps i = none) :
    Context.refine steps i st = st := by
  rw [Context.refine_check hinstr hr, Context.refine.multisig, hm]

private theorem Context.multisigAt?_eq_some_iff : Context.multisigAt? steps i = some m ↔
    Step.intAt? steps (i - 1) = some (m.keys : Int) ∧
      Step.intAt? steps (i - 2 - m.keys) = some (m.sigs : Int) := by
  constructor
  · intro h
    obtain ⟨keys, hkeys, h⟩ := Option.bind_eq_some_iff.mp h
    split at h
    · cases h
    · next hnonneg =>
      obtain ⟨sigs, hsigs, h⟩ := Option.bind_eq_some_iff.mp h
      split at h
      · cases h
      · next hnonneg' =>
        cases h
        have hkeysNat : (keys.toNat : Int) = keys := Int.toNat_of_nonneg (by omega)
        have hsigsNat : (sigs.toNat : Int) = sigs := Int.toNat_of_nonneg (by omega)
        dsimp only
        rw [hkeysNat, hsigsNat]
        exact ⟨hkeys, hsigs⟩
  · rintro ⟨hkeys, hsigs⟩
    simp [Context.multisigAt?, hkeys, hsigs]

private theorem Context.multisigAt?_congr {other : List Step}
    (h : Step.instrs other = Step.instrs steps) (i : Nat) :
    Context.multisigAt? other i = Context.multisigAt? steps i := by
  unfold Context.multisigAt?
  simp only [intAt?_congr h]

/-! ### One pass -/

/-- Whether two instructions are the same, or both inner scripts. -/
inductive Instr.Alike : Instr → Instr → Prop
  | same (i : Instr) : Alike i i
  | inner (ops ops' : List Instr) : Alike (.inner ops) (.inner ops')

private theorem Instr.Alike.toInt?_eq {i i' : Instr} (h : i.Alike i') : i'.toInt? = i.toInt? := by
  cases h <;> rfl

private theorem Instr.Alike.isReference_eq {i i' : Instr} (h : i.Alike i') :
    i'.isReference = i.isReference := by
  cases h <;> rfl

private theorem Instr.isReference_of_toInt? {i : Instr} {n : Int} (h : i.toInt? = some n) :
    i.isReference = false := by
  cases i with
  | op | push | inner => rfl
  | assume | assign | var | call => cases h

/-- The integer at a distance in front of a position. -/
theorem intAt?_sub {j d : Nat} (hd : d ≤ j) :
    Step.intAt? steps (j - d) = (steps[j - d]?).bind fun st => st.instr.toInt? := by
  rw [← Nat.cast_sub hd]
  rfl

private theorem mem_take_drop_iff {ops : List Instr} {instr : Instr} {a n : Nat} :
    instr ∈ (ops.drop a).take n ↔ ∃ e < n, ops[a + e]? = some instr := by
  simp only [List.mem_iff_getElem?, List.getElem?_take, List.getElem?_drop]
  constructor
  · rintro ⟨e, he⟩
    split at he
    · next hlt => exact ⟨e, hlt, he⟩
    · cases he
  · rintro ⟨e, hlt, he⟩
    exact ⟨e, by rw [if_pos hlt, he]⟩

namespace Session

variable {inner : InnerResult} {o : Options} {opt : Option Peephole.Optimizer} {e : Nat}
variable {s s' : Session} {ctx : Context} {k : Nat} {new : Replacement}

variable {j n keys : Nat}

private theorem Edits.alike (h : Edits inner o opt s ctx k new s') (hinner : Inward inner)
    (hs : s.Expanded) {op : Opcode} (hst : ctx.steps[j]? = some st) (hop : st.instr = .op op)
    (hn : n ≤ j)
    (hclosed : ∀ d ≤ n, ∀ st, ctx.steps[j - d]? = some st → st.instr.isReference = false) :
    ∃ j', Shifts k new j j' ∧ s'.steps[j']? = some st ∧ n ≤ j' ∧
      ∀ d ≤ n, ∃ st st', ctx.steps[j - d]? = some st ∧ s'.steps[j' - d]? = some st' ∧
        st.instr.Alike st'.instr := by
  have hcalls := hs.isCall_eq_false h.sees
  obtain ⟨⟨st₀, hst₀, hreplaces, hreplaceable⟩, hsteps, -⟩ := h.spec hinner hs
  obtain ⟨hj, -⟩ := List.getElem?_eq_some_iff.mp hst
  obtain ⟨hk, -⟩ := List.getElem?_eq_some_iff.mp hst₀
  have hsame {q q' : Nat} (hshifts : Shifts k new q q') : s'.steps[q']? = ctx.steps[q]? := by
    rw [hsteps]
    exact hshifts.getElem? hk.le
  have halike {q q' : Nat} (hq : q < ctx.steps.length) (hshifts : Shifts k new q q') :
      ∃ st st', ctx.steps[q]? = some st ∧ s'.steps[q']? = some st' ∧
        st.instr.Alike st'.instr :=
    ⟨_, _, List.getElem?_eq_getElem hq,
      (hsame hshifts).trans (List.getElem?_eq_getElem hq), .same _⟩
  rcases hreplaces.region hst₀ hreplaceable (hcalls st₀ (List.mem_of_getElem? hst₀)) with
    ⟨ops, ops', hops, hnew, hone⟩ | ⟨hpos, hle, hrefs⟩
  · -- one inner script comes in place of another, and all others stay where they are
    obtain ⟨st₁, hst₁, hinstr₁⟩ : ∃ st₁, new.1 = [st₁] ∧ st₁.instr = .inner ops' := by
      obtain ⟨st₁, rest, hcons, hinstr₁, hrest⟩ := List.map_eq_cons_iff.mp hnew
      rw [List.map_eq_nil_iff] at hrest
      exact ⟨st₁, hrest ▸ hcons, hinstr₁⟩
    have hlen : new.1.length = 1 := by rw [hst₁, List.length_singleton]
    have hshifts {q : Nat} (hq : q ≠ k) : Shifts k new q q := by
      by_cases hlt : q < k
      · exact .before hlt
      · have hbehind : Shifts k new q (q - new.2 + new.1.length) := .behind (by omega)
        rwa [show q - new.2 + new.1.length = q by omega] at hbehind
    have hne : j ≠ k := by
      rintro rfl
      rw [hst] at hst₀
      cases hst₀
      rw [hop] at hops
      cases hops
    refine ⟨j, hshifts hne, (hsame (hshifts hne)).trans hst, hn, fun d hd => ?_⟩
    by_cases heq : j - d = k
    · have hat : s'.steps[k]? = some st₁ := by
        rw [hsteps, List.append_assoc, List.getElem?_append_right (List.length_take_le _ _),
          List.length_take_of_le hk.le, Nat.sub_self, hst₁]
        rfl
      refine ⟨st₀, st₁, heq ▸ hst₀, heq ▸ hat, ?_⟩
      rw [hops, hinstr₁]
      exact .inner ops ops'
    · exact halike (by omega) (hshifts heq)
  · -- references are replaced, all in front of the instructions or all behind them
    have hout (d : Nat) (hd : d ≤ n) : ¬ (k ≤ j - d ∧ j - d < k + new.2) := by
      rintro ⟨hge, hlt⟩
      obtain ⟨st, hst, href⟩ := hrefs (j - d) hge hlt
      rw [hclosed d hd st hst] at href
      cases href
    by_cases hlt : j < k
    · refine ⟨j, .before hlt, (hsame (.before hlt)).trans hst, hn, fun d hd => ?_⟩
      exact halike (by omega) (.before (by omega))
    · have hfront : k + new.2 ≤ j - n := by
        by_contra hnot
        have hlast := hout 0 (Nat.zero_le n)
        exact hout (j - (k + new.2 - 1)) (by omega) (by omega)
      refine ⟨_, .behind (by omega), (hsame (.behind (by omega))).trans hst, by omega,
        fun d hd => ?_⟩
      have hshifts : Shifts k new (j - d) (j - d - new.2 + new.1.length) := .behind (by omega)
      rw [show j - new.2 + new.1.length - d = j - d - new.2 + new.1.length by omega]
      exact halike (by omega) hshifts

/-- The same numbers stand in front of that position, and no references. -/
theorem Edits.stretch (h : Edits inner o opt s ctx k new s') (hinner : Inward inner)
    (hs : s.Expanded) {op : Opcode} (hst : ctx.steps[j]? = some st) (hop : st.instr = .op op)
    (hn : n ≤ j)
    (hclosed : ∀ d ≤ n, ∀ st, ctx.steps[j - d]? = some st → st.instr.isReference = false) :
    ∃ j', Shifts k new j j' ∧ s'.steps[j']? = some st ∧ n ≤ j' ∧ ∀ d ≤ n,
      Step.intAt? s'.steps (j' - d) = Step.intAt? ctx.steps (j - d) ∧
        ∀ st, s'.steps[j' - d]? = some st → st.instr.isReference = false := by
  obtain ⟨j', hshifts, hat, hle, halike⟩ := h.alike hinner hs hst hop hn hclosed
  refine ⟨j', hshifts, hat, hle, fun d hd => ?_⟩
  obtain ⟨st₀, st₁, hst₀, hst₁, hinstr⟩ := halike d hd
  constructor
  · rw [intAt?_sub (hd.trans hle), intAt?_sub (hd.trans hn), hst₀, hst₁]
    exact hinstr.toInt?_eq
  · intro st hst
    rw [hst₁] at hst
    cases hst
    rw [hinstr.isReference_eq]
    exact hclosed d hd st₀ hst₀

/-- A number is no reference. -/
theorem isReference_of_intAt? {d : Nat} (hd : d ≤ j) {n : Int}
    (h : Step.intAt? steps (j - d) = some n) :
    ∀ st, steps[j - d]? = some st → st.instr.isReference = false := by
  intro st hst
  rw [intAt?_sub hd, hst] at h
  exact Instr.isReference_of_toInt? h

/-! ### All passes -/

/-- Whether a check stands at a position, directly behind the number of its keys, and has counts
with so many keys or will have in the next context. -/
structure Keyed (check : Opcode) (r keys : Nat) (steps : List Step) (j : Nat) : Prop where
  number : Step.intAt? steps (j - 1) = some (keys : Int)
  check : ∃ st, steps[j]? = some st ∧ st.instr = .op check ∧
    ((∃ m, Context.multisigAt? steps j = some m) ∨ ∃ m : Multisig, st.Counts r m ∧ m.keys = keys)

/-- Whether the counts of a check at a position are found, and no reference stands in the place of
its keys. -/
structure Fenced (m : Multisig) (steps : List Step) (j : Nat) : Prop where
  counts : Context.multisigAt? steps j = some m
  closed : ∀ i ∈ ((Step.instrs steps).drop (j - 1 - m.keys)).take m.keys, i.isReference = false

private theorem Fenced.congr {other : List Step} (h : Fenced m steps j)
    (hinstrs : Step.instrs other = Step.instrs steps) : Fenced m other j := by
  constructor
  · rw [Context.multisigAt?_congr hinstrs]
    exact h.counts
  · rw [hinstrs]
    exact h.closed

/-- What a context says of a check. -/
theorem Keyed.of_sees (h : Keyed check r keys s.steps j) (hr : check.multisigResults? = some r)
    (hopt : ∀ p, opt = some p → p.enabled = false) (hsees : Sees o opt s ctx) :
    ∃ st m, ctx.steps[j]? = some st ∧ st.instr = .op check ∧
      st.Counts r m ∧ m.keys = keys ∧ ∀ m', Context.multisigAt? s.steps j = some m' → m = m' := by
  obtain ⟨st, hst, hinstr, hcounts⟩ := h.check
  have hat : ctx.steps[j]? = some (Context.refine s.steps j st) := by
    rw [hsees.steps_eq hopt, Context.getElem?_refined, hst]
    rfl
  have hinstr' := (Context.instr_refine s.steps j st).trans hinstr
  cases hm : Context.multisigAt? s.steps j with
  | some m =>
    obtain ⟨hkeys, -⟩ := Context.multisigAt?_eq_some_iff.mp hm
    have heq : m.keys = keys := by
      rw [h.number] at hkeys
      exact (Int.ofNat.inj (Option.some.inj hkeys)).symm
    exact ⟨_, m, hat, hinstr', Context.counts_refine hinstr hr hm, heq, fun _ => Option.some.inj⟩
  | none =>
    rw [hm] at hcounts
    rcases hcounts with ⟨m, hnone⟩ | ⟨m, hcounts, hkeys⟩
    · cases hnone
    · rw [Context.refine_of_multisigAt?_eq_none hinstr hr hm] at hat
      exact ⟨st, m, hat, hinstr, hcounts, hkeys, by simp⟩

/-- A check and the number of its keys stay next to each other. -/
theorem Keyed.of_edits (h : Keyed check r keys s.steps j) (hr : check.multisigResults? = some r)
    (hopt : ∀ p, opt = some p → p.enabled = false) (hinner : Inward inner) (hs : s.Expanded)
    (hedits : Edits inner o opt s ctx k new s') :
    ∃ j', Shifts k new j j' ∧ Keyed check r keys s'.steps j' := by
  obtain ⟨st, m, hst, hinstr, hcounts, hkeys, -⟩ := h.of_sees hr hopt hedits.sees
  have hnumber : Step.intAt? ctx.steps (j - (1 : Nat)) = some (keys : Int) := by
    rw [intAt?_congr (hedits.sees.instrs_eq hopt)]
    exact h.number
  have hpos : 1 ≤ j := by
    cases j with
    | zero => cases hnumber
    | succ j => omega
  have hclosed : ∀ d ≤ 1, ∀ st, ctx.steps[j - d]? = some st → st.instr.isReference = false := by
    intro d hd
    obtain rfl | rfl : d = 0 ∨ d = 1 := by omega
    · intro st' hst'
      rw [Nat.sub_zero, hst] at hst'
      cases hst'
      rw [hinstr]
      rfl
    · exact isReference_of_intAt? hpos hnumber
  obtain ⟨j', hshifts, hat, -, hfront⟩ := hedits.stretch hinner hs hst hinstr hpos hclosed
  obtain ⟨hnumber', -⟩ := hfront 1 le_rfl
  exact ⟨j', hshifts, hnumber'.trans hnumber, st, hat, hinstr, .inr ⟨m, hcounts, hkeys⟩⟩

/-- Counts that are found stay where they are looked for, if there is nothing between them to be
replaced by more or fewer instructions. -/
theorem Fenced.of_edits (h : Fenced m s.steps j)
    (hcheck : (Step.instrs s.steps)[j]? = some (.op check))
    (hopt : ∀ p, opt = some p → p.enabled = false) (hinner : Inward inner) (hs : s.Expanded)
    (hedits : Edits inner o opt s ctx k new s') :
    ∃ j', Shifts k new j j' ∧ Fenced m s'.steps j' := by
  have hinstrs := hedits.sees.instrs_eq hopt
  have hfenced := h.congr hinstrs
  obtain ⟨hkeys, hsigs⟩ := Context.multisigAt?_eq_some_iff.mp hfenced.counts
  have hle : m.keys + 2 ≤ j := by
    by_contra hnot
    obtain ⟨q, hq⟩ : ∃ q, (j : Int) - 2 - m.keys = .negSucc q :=
      Int.eq_negSucc_of_lt_zero (by omega)
    rw [hq] at hsigs
    cases hsigs
  have hsub (j : Nat) : (j : Int) - 2 - m.keys = j - (m.keys + 2 : Nat) := by omega
  rw [hsub] at hsigs
  rw [← hinstrs, Step.instrs, List.getElem?_map] at hcheck
  obtain ⟨st, hst, hinstr⟩ := Option.map_eq_some_iff.mp hcheck
  have hclosed : ∀ d ≤ m.keys + 2, ∀ st, ctx.steps[j - d]? = some st →
      st.instr.isReference = false := by
    intro d hd
    -- the check itself, the number of keys, the number of signatures, and what is between them
    by_cases hzero : d = 0
    · subst hzero
      intro st' hst'
      rw [Nat.sub_zero, hst] at hst'
      cases hst'
      rw [hinstr]
      rfl
    by_cases hone : d = 1
    · subst hone
      exact isReference_of_intAt? (by omega) hkeys
    by_cases hlast : d = m.keys + 2
    · subst hlast
      exact isReference_of_intAt? hle hsigs
    intro st' hst'
    refine hfenced.closed _ (mem_take_drop_iff.mpr ⟨m.keys + 1 - d, by omega, ?_⟩)
    rw [show j - 1 - m.keys + (m.keys + 1 - d) = j - d by omega, Step.instrs, List.getElem?_map,
      hst']
    rfl
  obtain ⟨j', hshifts, -, hle', hfront⟩ := hedits.stretch hinner hs hst hinstr hle hclosed
  refine ⟨j', hshifts, Context.multisigAt?_eq_some_iff.mpr ⟨?_, ?_⟩, ?_⟩
  · exact (hfront 1 (by omega)).1.trans hkeys
  · rw [hsub]
    exact (hfront (m.keys + 2) le_rfl).1.trans hsigs
  · intro instr hmem
    obtain ⟨e, he, hat⟩ := mem_take_drop_iff.mp hmem
    rw [show j' - 1 - m.keys + e = j' - (m.keys + 1 - e) by omega, Step.instrs,
      List.getElem?_map] at hat
    obtain ⟨st', hst', rfl⟩ := Option.map_eq_some_iff.mp hat
    exact (hfront (m.keys + 1 - e) (by omega)).2 st' hst'

/-- What every pass keeps of a check. -/
theorem Reaches.carries_check (h : Reaches inner o opt s s') (hkeyed : Keyed check r keys s.steps i)
    (hr : check.multisigResults? = some r) (hopt : ∀ p, opt = some p → p.enabled = false)
    (hinner : Inward inner) (hs : s.Expanded) :
    ∃ j, Carries inner o opt s i s' j ∧ Keyed check r keys s'.steps j ∧
      ∀ m, Fenced m s.steps i → Fenced m s'.steps j := by
  induction h with
  | refl => exact ⟨i, .start, hkeyed, fun _ h => h⟩
  | @tail s₁ s₂ hreaches hpass ih =>
    obtain ⟨ctx, k, new, hedits⟩ := hpass
    obtain ⟨j, hcarries, hkeyed₁, hfenced⟩ := ih
    have hs₁ := hs.of_reaches hinner hreaches
    obtain ⟨j', hshifts, hkeyed₂⟩ := hkeyed₁.of_edits hr hopt hinner hs₁ hedits
    refine ⟨j', hcarries.pass hedits hshifts, hkeyed₂, fun m hm => ?_⟩
    obtain ⟨st, hst, hinstr, -⟩ := hkeyed₁.check
    have hcheck : (Step.instrs s₁.steps)[j]? = some (.op check) := by
      rw [Step.instrs, List.getElem?_map, hst]
      exact congrArg some hinstr
    obtain ⟨j'', hshifts', hfenced'⟩ := (hfenced m hm).of_edits hcheck hopt hinner hs₁ hedits
    obtain rfl := hshifts.unique hshifts'
    exact hfenced'

/-- From the first context on that finds the counts of a check, every context, whatever passes have
replaced in between, finds as many keys, and the check takes what its counts say. If no name is read
or written between the counts, the check stays as it is. -/
theorem multisig_kept_by_passes (hinner : Inward inner)
    (hopt : ∀ p, opt = some p → p.enabled = false) {s₀ s₁ : Session} (hs : s.Sound)
    (hcalls : (expandCalls o e).run s = .ok () s₁) (hroute : (route o).run s₁ = .ok () s₀)
    {ctx₀ : Context} (hsees : Sees o opt s₀ ctx₀) (hst : ctx₀.steps[i]? = some st)
    (hinstr : st.instr = .op check) (hr : check.multisigResults? = some r)
    (hm : Context.multisigAt? ctx₀.steps i = some m) (hreaches : Reaches inner o opt s₀ s') :
    st.Counts r m ∧ ∃ j, Carries inner o opt s₀ i s' j ∧ ∀ ctx, Sees o opt s' ctx →
      ∃ st' m', ctx.steps[j]? = some st' ∧ st'.instr = st.instr ∧ st'.Counts r m' ∧
        m'.keys = m.keys ∧
        ((∀ instr ∈ ((Step.instrs ctx₀.steps).drop (i - 1 - m.keys)).take m.keys,
          instr.isReference = false) → m' = m) := by
  have hinstrs := hsees.instrs_eq hopt
  rw [Context.multisigAt?_congr hinstrs] at hm
  rw [hsees.steps_eq hopt, Context.getElem?_refined] at hst
  obtain ⟨st₀, hst₀, rfl⟩ := Option.map_eq_some_iff.mp hst
  rw [Context.instr_refine] at hinstr ⊢
  obtain ⟨hnumber, -⟩ := Context.multisigAt?_eq_some_iff.mp hm
  have hkeyed : Keyed check r m.keys s₀.steps i := ⟨hnumber, st₀, hst₀, hinstr, .inl ⟨m, hm⟩⟩
  obtain ⟨j, hcarries, hkeyed', hfenced⟩ := hreaches.carries_check hkeyed hr hopt hinner
    (hs.expanded_of_route hcalls hroute)
  refine ⟨Context.counts_refine hinstr hr hm, j, hcarries, fun ctx hsees' => ?_⟩
  obtain ⟨st', m', hst', hinstr', hcounts, hkeys, hfound⟩ := hkeyed'.of_sees hr hopt hsees'
  refine ⟨st', m', hst', hinstr'.trans hinstr.symm, hcounts, hkeys, fun hclosed => ?_⟩
  rw [hinstrs] at hclosed
  exact hfound m (hfenced m ⟨hm, hclosed⟩).counts

/-- The sessions before and after routing, the first context, and the session and the context after
so many passes, with the place there of a step of the first context. -/
private def replay? (o : Options) (s : Session) (n i : Nat) :
    Option (Session × Session × Context × Session × Nat × Context) :=
  match (expandCalls o 0).run s with
  | .error _ _ => none
  | .ok _ s₁ =>
    match (route o).run s₁ with
    | .error _ _ => none
    | .ok _ s₀ =>
      match context? o none s₀, carry? (fun _ => throw (.fault .endless)) o none n s₀ i with
      | some ctx₀, some (s', j) => (context? o none s').map fun ctx => (s₁, s₀, ctx₀, s', j, ctx)
      | _, _ => none

private theorem of_replay? {s₁ s₀ : Session} {ctx₀ : Context}
    (h : replay? o s n i = some (s₁, s₀, ctx₀, s', j, ctx)) :
    (expandCalls o 0).run s = .ok () s₁ ∧ (route o).run s₁ = .ok () s₀ ∧ Sees o none s₀ ctx₀ ∧
      Carries (fun _ => throw (.fault .endless)) o none s₀ i s' j ∧ Sees o none s' ctx := by
  unfold replay? at h
  split at h
  · cases h
  · next hcalls =>
    split at h
    · cases h
    · next hroute =>
      split at h
      · next hctx₀ hcarry =>
        obtain ⟨ctx, hctx, heq⟩ := Option.map_eq_some_iff.mp h
        cases heq
        exact ⟨hcalls, hroute, sees_of_context? hctx₀, Carries.start.of_carry? hcarry,
          sees_of_context? hctx⟩
      · cases h

/-- Checks one signature, which is read by name, with two keys. -/
def namedSignature : Program where
  stack := [[122], [115]]
  ops := [.op .zero, .assume [115], .op .one, .push [2, 2], .push [3, 3], .op .two,
    .op .checkMultiSig, .assume [122], .op .equal]

/-- A signature that is read by name. -/
theorem multisig_kept_by_passes_named_signature :
    ∃ s₁ s₀ ctx₀ st s' ctx j st', (expandCalls {} 0).run
        { steps := Step.ofList namedSignature.ops, table := .ofProgram namedSignature } =
          .ok () s₁ ∧
      (route {}).run s₁ = .ok () s₀ ∧ Sees {} none s₀ ctx₀ ∧ ctx₀.steps[6]? = some st ∧
      st.instr = .op .checkMultiSig ∧
      Context.multisigAt? ctx₀.steps 6 = some { sigs := 1, keys := 2 } ∧
      s'.replacements = 2 ∧ Sees {} none s' ctx ∧
      Carries (fun _ => throw (.fault .endless)) {} none s₀ 6 s' j ∧ ctx.steps[j]? = some st' ∧
      st'.instr = .op .checkMultiSig ∧ st'.Counts 1 { sigs := 1, keys := 2 } := by
  have hreplay : ((replay? {}
      { steps := Step.ofList namedSignature.ops, table := .ofProgram namedSignature } 2 6).map
      fun h => (h.2.2.1.steps[6]?.map (·.instr), Context.multisigAt? h.2.2.1.steps 6,
        ((Step.instrs h.2.2.1.steps).drop 3).take 2, h.2.2.2.1.replacements)) =
      some (some (.op .checkMultiSig), some { sigs := 1, keys := 2 },
        [.push [2, 2], .push [3, 3]], 2) := by cbv
  obtain ⟨⟨s₁, s₀, ctx₀, s', j, ctx⟩, hreplay, hfacts⟩ := Option.map_eq_some_iff.mp hreplay
  obtain ⟨hcalls, hroute, hsees, hcarries, hsees'⟩ := of_replay? hreplay
  simp only [Prod.mk.injEq, Option.map_eq_some_iff] at hfacts
  obtain ⟨⟨st, hst, hinstr⟩, hm, hkeys, htwo⟩ := hfacts
  obtain ⟨-, j', hcarries', hkept⟩ := multisig_kept_by_passes (inward_throw _) (by simp)
    ⟨Step.genuine_ofList _, Table.parameterFree_ofProgram _⟩ hcalls hroute hsees hst hinstr rfl hm
    hcarries.reaches
  obtain ⟨st', m', hst', hinstr', hcounts, -, hsame⟩ := hkept ctx hsees'
  have hclosed : ∀ instr ∈ ((Step.instrs ctx₀.steps).drop 3).take 2, instr.isReference = false := by
    rw [hkeys]
    decide
  obtain rfl := hsame hclosed
  exact ⟨s₁, s₀, ctx₀, st, s', ctx, j', st', hcalls, hroute, hsees, hst, hinstr, hm, htwo, hsees',
    hcarries', hst', hinstr'.trans hinstr, hcounts⟩

/-- Checks one signature with two keys, all of which are read by name. -/
def namedKeys : Program where
  stack := [[122], [115], [97], [98]]
  ops := [.op .zero, .assume [115], .op .one, .assume [97], .assume [98], .op .two,
    .op .checkMultiSig, .assume [122], .op .equal]

/-- Once the first key is replaced by two instructions, its depth stands where the number of
signatures is looked for. -/
theorem multisig_changed_by_named_key :
    ∃ s₁ s₀ ctx₀ st s' ctx j st', (expandCalls {} 0).run
        { steps := Step.ofList namedKeys.ops, table := .ofProgram namedKeys } = .ok () s₁ ∧
      (route {}).run s₁ = .ok () s₀ ∧ Sees {} none s₀ ctx₀ ∧ ctx₀.steps[6]? = some st ∧
      st.instr = .op .checkMultiSig ∧ st.multisig = some { sigs := 1, keys := 2 } ∧ st.delta = -5 ∧
      Carries (fun _ => throw (.fault .endless)) {} none s₀ 6 s' j ∧ Sees {} none s' ctx ∧
      ctx.steps[j]? = some st' ∧ st'.instr = .op .checkMultiSig ∧
      st'.multisig = some { sigs := 4, keys := 2 } ∧ st'.delta = -8 := by
  have hreplay : ((replay? {} { steps := Step.ofList namedKeys.ops, table := .ofProgram namedKeys }
      2 6).map fun h =>
        (h.2.2.1.steps[6]?.map fun st => (st.instr, st.multisig, st.delta),
          h.2.2.2.2.2.steps[h.2.2.2.2.1]?.map fun st => (st.instr, st.multisig, st.delta))) =
      some (some (.op .checkMultiSig, some { sigs := 1, keys := 2 }, -5),
        some (.op .checkMultiSig, some { sigs := 4, keys := 2 }, -8)) := by cbv
  obtain ⟨⟨s₁, s₀, ctx₀, s', j, ctx⟩, hreplay, hfacts⟩ := Option.map_eq_some_iff.mp hreplay
  obtain ⟨hcalls, hroute, hsees, hcarries, hsees'⟩ := of_replay? hreplay
  simp only [Prod.mk.injEq, Option.map_eq_some_iff] at hfacts
  obtain ⟨⟨st, hst, hinstr, hm, hdelta⟩, st', hst', hinstr', hm', hdelta'⟩ := hfacts
  exact ⟨s₁, s₀, ctx₀, st, s', ctx, j, st', hcalls, hroute, hsees, hst, hinstr, hm, hdelta,
    hcarries, hsees', hst', hinstr', hm', hdelta'⟩

end Session

end NamedStack
