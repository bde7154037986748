import NamedStack.Proofs.Context.Positions

/-!
# What the arms of a conditional add

What an arm adds is what the height followed from the left grows by in it. So a conditional is
uneven exactly if the heights differ at the ends of its arms, and a program whose arms end at the
same heights has nothing to route.
-/

namespace NamedStack

open Branch (Scan)
open Branch.Scan (contains_iff)

namespace Context

variable {ctx : Context}

private theorem drop_zipIdx (steps : List Step) (n : Nat) :
    steps.zipIdx.drop n = (steps.drop n).zipIdx n := by
  refine List.ext_getElem? fun i => ?_
  rw [List.getElem?_drop, List.getElem?_zipIdx, List.getElem?_zipIdx, List.getElem?_drop,
    Nat.zero_add]

variable {b : Branch}

variable {k : Nat} {sf : Scan} {steps : List Step}

private theorem armDelta_eq (hs : sf.Sound ctx.steps.length) (hbs : ctx.branches = sf.branches)
    (hb : sf.branches[k]? = some b) : ctx.armDelta b = sf.armTotal (deltaAt ctx.steps) b := by
  have hinner (i : Nat) : (ctx.branches.any fun n => n.nest > b.nest && n.contains i && !n.isTrue) =
      true ↔ sf.Inner b.nest i := by
    simp only [hbs, List.any_eq_true, Bool.and_eq_true, decide_eq_true_eq, Bool.not_eq_true']
    constructor
    · rintro ⟨n, hn, ⟨hnest, hcont⟩, hfalse⟩
      obtain ⟨j, hj⟩ := List.mem_iff_getElem?.mp hn
      exact ⟨j, n, hj, hnest, hfalse, hcont⟩
    · rintro ⟨j, n, hj, hnest, hfalse, hcont⟩
      exact ⟨n, List.mem_of_getElem? hj, ⟨hnest, hcont⟩, hfalse⟩
  unfold armDelta Scan.armTotal
  generalize hx : b.stop.getD b.start = x
  have hle : x ≤ b.start ∨ x < ctx.steps.length := by
    cases hstop : b.stop with
    | none =>
      rw [hstop] at hx
      exact .inl (Nat.le_of_eq hx.symm)
    | some y =>
      rw [hstop] at hx
      exact .inr (hx ▸ hs.stopped k b y hb hstop)
  have hkeep := foldr_eq_total (δ := deltaAt ctx.steps)
    (fun i => !ctx.branches.any fun n => n.nest > b.nest && n.contains i && !n.isTrue)
    ((ctx.steps.take x).drop b.start) b.start fun i st hi => ?_
  · have hflip : (fun p : Step × Nat =>
        if (ctx.branches.any fun n => n.nest > b.nest && n.contains p.2 && !n.isTrue) = true
          then none else some p.1.delta) = fun p =>
        if (!ctx.branches.any fun n => n.nest > b.nest && n.contains p.2 && !n.isTrue) = true
          then some p.1.delta else none := by
      funext p
      cases ctx.branches.any fun n => n.nest > b.nest && n.contains p.2 && !n.isTrue <;> rfl
    dsimp only
    rw [drop_zipIdx, hflip, hkeep, List.length_drop, List.length_take]
    have hrange : Finset.Ico b.start (b.start + (min x ctx.steps.length - b.start)) =
        Finset.Ico b.start x := by
      ext i
      simp only [Finset.mem_Ico]
      omega
    rw [total, hrange]
    refine total_congr fun i _ _ => ?_
    rw [Bool.not_eq_true', ← hinner, Bool.not_eq_true]
  · rw [List.getElem?_drop, List.getElem?_take] at hi
    split at hi
    · rw [deltaAt, hi]
      rfl
    · cases hi

/-- What an arm adds depends on the steps in it. -/
theorem armDelta_congr (hlen : steps.length = ctx.steps.length)
    (h : ∀ (i : Nat) (st st' : Step), b.contains i = true → ctx.steps[i]? = some st →
      steps[i]? = some st' → st'.delta = st.delta) :
    { ctx with steps }.armDelta b = ctx.armDelta b := by
  have hdeltas : (((steps.take (b.stop.getD b.start)).zipIdx.drop b.start).map
        fun p => (p.1.delta, p.2)) =
      ((ctx.steps.take (b.stop.getD b.start)).zipIdx.drop b.start).map fun p =>
        (p.1.delta, p.2) := by
    apply List.ext_getElem?
    intro i
    simp only [List.getElem?_map, List.getElem?_drop, List.getElem?_zipIdx, List.getElem?_take]
    split
    · next hi =>
      have hcont : b.contains (b.start + i) = true := by
        cases hstop : b.stop with
        | none =>
          rw [hstop, Option.getD_none] at hi
          omega
        | some x =>
          rw [hstop, Option.getD_some] at hi
          exact (contains_iff b _).mpr ⟨x, hstop, by omega, hi⟩
      by_cases hlt : b.start + i < ctx.steps.length
      · have hst := List.getElem?_eq_getElem hlt
        have hst' := List.getElem?_eq_getElem (hlen.symm ▸ hlt)
        rw [hst, hst', Option.map_some, Option.map_some, Option.map_some, Option.map_some,
          h _ _ _ hcont hst hst']
      · rw [List.getElem?_eq_none (by omega), List.getElem?_eq_none (by omega)]
    · rfl
  have hfactor (l : List (Step × Nat)) : (l.filterMap fun p =>
        if (ctx.branches.any fun n => n.nest > b.nest && n.contains p.2 && !n.isTrue) = true
          then none else some p.1.delta) =
      (l.map fun p => (p.1.delta, p.2)).filterMap fun p =>
        if (ctx.branches.any fun n => n.nest > b.nest && n.contains p.2 && !n.isTrue) = true
          then none else some p.1 := by
    rw [List.filterMap_map]
    rfl
  unfold armDelta
  dsimp only
  rw [hfactor, hfactor, hdeltas]

private theorem partner_eq (hs : sf.Sound ctx.steps.length) (hbs : ctx.branches = sf.branches)
    (hb : sf.branches[k]? = some b) (htrue : b.isTrue = true) :
    ((b.sibling >>= (ctx.branches[·]?)).map ctx.armDelta).getD 0 =
      sf.partnerTotal (deltaAt ctx.steps) b := by
  unfold Scan.partnerTotal
  rw [hbs]
  cases hsib : b.sibling with
  | none => rfl
  | some m =>
    obtain ⟨t, ht, -⟩ := hs.linked k b m hb htrue hsib
    change ((sf.branches[m]?).map ctx.armDelta).getD 0 =
      ((sf.branches[m]?).map (sf.armTotal _)).getD 0
    rw [ht]
    exact armDelta_eq hs hbs ht

/-- A program that can be followed from the left has branches. -/
theorem exists_branches (hzero : EndsFree steps) {base : Int} {h : Heights}
    (hrun : Heights.run { now := base } steps = some h) (hlevels : h.levels = []) :
    ∃ bs, Branch.ofInstrs (Step.instrs steps) = .ok bs := by
  have hagrees := (Scan.agrees_start (fun _ _ _ => True) (deltaAt steps) base).run steps
    (fun i st hi => by rw [Nat.zero_add, deltaAt, hi]; rfl) hzero fun _ _ _ _ _ _ _ _ _ _ => trivial
  rw [hrun] at hagrees
  cases hs : Scan.run {} 0 (Step.instrs steps) with
  | error e => rw [hs] at hagrees; exact hagrees.elim
  | ok s =>
    rw [hs] at hagrees
    have hopened := hagrees.levels
    rw [hlevels, List.forall₂_nil_right_iff] at hopened
    exact ⟨s.branches, (Branch.ofInstrs_eq_ok_iff _ _).mpr ⟨s, hs, hopened, rfl⟩⟩

/-- Every marker that closes a conditional closes one of the context. -/
theorem exists_conditional (hbr : Branch.ofInstrs (Step.instrs ctx.steps) = .ok ctx.branches)
    {e : Nat} {st : Step} (hst : ctx.steps[e]? = some st) (hinstr : st.instr = .op .opEndIf) :
    ∃ c ∈ ctx.conditionals, c.endIf = e := by
  obtain ⟨sf, hsf, -, hbs⟩ := (Branch.ofInstrs_eq_ok_iff _ _).mp hbr
  obtain ⟨he, rfl⟩ := List.getElem?_eq_some_iff.mp hst
  have hsplit : Step.instrs ctx.steps = Step.instrs (ctx.steps.take e) ++
      .op .opEndIf :: Step.instrs (ctx.steps.drop (e + 1)) := by
    rw [← hinstr, Step.instrs, Step.instrs, Step.instrs, ← List.map_cons, ← List.map_append,
      ← List.drop_eq_getElem_cons he, List.take_append_drop]
  rw [hsplit] at hsf
  obtain ⟨k, b, hb, htrue, hend⟩ := Scan.sound_nil.exists_closed hsf
  rw [Step.instrs, List.length_map, List.length_take_of_le he.le, Nat.zero_add] at hend
  refine ⟨{ first := b, second := b.sibling >>= (ctx.branches[·]?), endIf := e },
    List.mem_filterMap.mpr ⟨b, ?_, ?_⟩, rfl⟩
  · rw [← hbs]
    exact List.mem_of_getElem? hb
  · simp only [htrue, hend]

section

variable (hbr : Branch.ofInstrs (Step.instrs ctx.steps) = .ok ctx.branches)
  (hzero : EndsFree ctx.steps)

include hbr hzero

variable {c : Conditional}

/-- Every conditional of a context is closed by a marker, in front of which the heights followed
from the left say what its arms add. -/
theorem exists_arms (base : Int) (hc : c ∈ ctx.conditionals) :
    ∃ st h l ls, ctx.steps[c.endIf]? = some st ∧ st.instr = .op .opEndIf ∧
      Heights.run { now := base } (ctx.steps.take c.endIf) = some h ∧ h.levels = l :: ls ∧
      ctx.armDelta c.first = l.arm.getD h.now - l.entry ∧
      (c.second.map ctx.armDelta).getD 0 = (l.arm.map fun _ => h.now - l.entry).getD 0 := by
  have hagrees := (Scan.agrees_start (fun e u v => ∃ st h l ls, ctx.steps[e]? = some st ∧
      st.instr = .op .opEndIf ∧ Heights.run { now := base } (ctx.steps.take e) = some h ∧
      h.levels = l :: ls ∧ u = l.arm.getD h.now - l.entry ∧
      v = (l.arm.map fun _ => h.now - l.entry).getD 0) (deltaAt ctx.steps) base).run
    ctx.steps (fun i st hi => by rw [Nat.zero_add, deltaAt, hi]; rfl) hzero ?_
  · obtain ⟨sf, hsf, -, hbs⟩ := (Branch.ofInstrs_eq_ok_iff _ _).mp hbr
    rw [hsf] at hagrees
    cases hrun : Heights.run { now := base } ctx.steps with
    | none =>
      rw [hrun] at hagrees
      exact hagrees.elim
    | some hf =>
      rw [hrun, Nat.zero_add] at hagrees
      have hs := hagrees.sound
      obtain ⟨b, hb, hcond⟩ := List.mem_filterMap.mp hc
      rw [← hbs] at hb
      obtain ⟨k, hk⟩ := List.mem_iff_getElem?.mp hb
      cases htrue : b.isTrue with
      | false => simp [htrue] at hcond
      | true =>
        cases hend : b.endIf with
        | none => simp [htrue, hend] at hcond
        | some e =>
          simp only [htrue, hend, Option.some.injEq] at hcond
          subst hcond
          rw [armDelta_eq hs hbs.symm hk, partner_eq hs hbs.symm hk htrue]
          exact hagrees.ended k b e hk htrue hend
  · intro front st back h l ls hsplit hinstr hfront hl
    refine ⟨st, h, l, ls, ?_, hinstr, ?_, hl, rfl, rfl⟩
    · rw [Nat.zero_add, hsplit, List.getElem?_append_right (Nat.le_refl _), Nat.sub_self]
      rfl
    · rw [Nat.zero_add, hsplit, List.take_left]
      exact hfront

/-- A conditional is uneven exactly if the heights followed from the left differ at the ends of its
arms. -/
theorem isUneven_iff (base : Int) (hc : c ∈ ctx.conditionals) :
    ∃ st h l ls, ctx.steps[c.endIf]? = some st ∧ st.instr = .op .opEndIf ∧
      Heights.run { now := base } (ctx.steps.take c.endIf) = some h ∧ h.levels = l :: ls ∧
      (ctx.isUneven c = true ↔ h.now ≠ l.arm.getD l.entry) := by
  obtain ⟨st, h, l, ls, hst, hinstr, hrun, hl, hfirst, hsecond⟩ := exists_arms hbr hzero base hc
  refine ⟨st, h, l, ls, hst, hinstr, hrun, hl, ?_⟩
  rw [isUneven, bne_iff_ne, hfirst, hsecond]
  cases l.arm with
  | none =>
    simp only [Option.getD_none, Option.map_none]
    omega
  | some a =>
    simp only [Option.getD_some, Option.map_some]
    omega

/-- A program whose conditionals leave the same height at the end of each arm has no uneven one. -/
theorem uneven_eq_nil {base : Int}
    (heven : ∀ front st back h l ls, ctx.steps = front ++ st :: back → st.instr = .op .opEndIf →
      Heights.run { now := base } front = some h → h.levels = l :: ls →
        h.now = l.arm.getD l.entry) : ctx.uneven = [] := by
  apply List.filter_eq_nil_iff.mpr
  intro c hc huneven
  obtain ⟨st, h, l, ls, hst, hinstr, hrun, hl, hiff⟩ := isUneven_iff hbr hzero base hc
  obtain ⟨he, rfl⟩ := List.getElem?_eq_some_iff.mp hst
  have hsplit : ctx.steps = ctx.steps.take c.endIf ++
      ctx.steps[c.endIf] :: ctx.steps.drop (c.endIf + 1) := by
    rw [← List.drop_eq_getElem_cons he, List.take_append_drop]
  exact hiff.mp huneven (heven _ _ _ h l ls hsplit hinstr hrun hl)

end

/-- Nothing is routed in a program whose conditionals are even, if all its writes stand outside of
them. -/
theorem routing_of_uneven (huneven : ctx.uneven = [])
    (hnest : ∀ name, ∀ i ∈ ctx.assignments.of name, ctx.nestLevel i = 0) (t : Table) (o : Options) :
    ctx.routing t o = .ok {} := by
  have hcrossed (after : Int) (before : Nat) : crossed? [] after before = none := rfl
  have hassumptions : ctx.routedAssumptions t o.useAltStack [] = .ok [] := by
    unfold routedAssumptions
    generalize ctx.assumptions.names = names
    induction names with
    | nil => rfl
    | cons name names ih =>
      have hnone : ctx.strandedRead? [] name = none := by
        rw [strandedRead?, List.findSome?_eq_none_iff]
        exact fun _ _ => rfl
      rw [List.foldlM_cons, hnone]
      exact ih
  have hvars : ctx.routedVariables [] = [] := by
    have hnone : ctx.assignments.names.filter (ctx.isMutable []) = [] := by
      refine List.filter_eq_nil_iff.mpr fun name _ => ?_
      rw [isMutable]
      simp only [hcrossed, Bool.or_eq_true, Bool.and_eq_true, List.any_eq_true, not_or, not_and]
      refine ⟨fun _ => ?_, by simp⟩
      rintro ⟨i, hi, hlevel⟩
      rw [hnest name i hi] at hlevel
      cases hlevel
    rw [routedVariables, hnone, List.mergeSort_nil]
  rw [routing, huneven]
  simp only [hassumptions, hvars, bind, Except.bind]
  rfl

end Context

end NamedStack
