import NamedStack.Proofs.Resolve.Accepted

/-!
# What arms add in resolved programs

A program is routed by what its arms add before its references are resolved. A read adds one item
there, and so does its code inside of a conditional; a write adds nothing, and so does what is left
of it, unless its name has a slot: the code of such a write takes an item away. So an arm adds the
same in the resolved program if nothing in it is stored in a slot, and if no effect in it depends on
literals.
-/

namespace NamedStack

open Session (analyse)

namespace Context

/-- Whether a position lies in an arm of a conditional. -/
def Conditional.contains (c : Conditional) (i : Nat) : Bool :=
  c.first.contains i || c.second.any fun b => b.contains i

/-- Whether what the arms of a conditional add is settled before references are resolved: no effect
in them depends on literals, and no routed name is written in them. -/
def ArmsSettled (ctx : Context) (r : Routing) (c : Conditional) : Prop :=
  ∀ p ∈ ctx.steps.zipIdx, c.contains p.2 = true →
    Steady p.1.instr ∧ ∀ name ∈ assigned? p.1.instr, name ∉ r.names

instance (ctx : Context) (r : Routing) (c : Conditional) : Decidable (ctx.ArmsSettled r c) :=
  inferInstanceAs (Decidable (∀ p ∈ ctx.steps.zipIdx, _ → _))

variable {ctx : Context}

variable {c : Conditional} {b : Branch}

private theorem mem_branches (hc : c ∈ ctx.conditionals) :
    c.first ∈ ctx.branches ∧ ∀ b, c.second = some b → b ∈ ctx.branches := by
  obtain ⟨b, hb, hcond⟩ := List.mem_filterMap.mp hc
  split at hcond
  · cases hcond
    refine ⟨hb, fun t ht => ?_⟩
    obtain ⟨k, -, hk⟩ := Option.bind_eq_some_iff.mp ht
    exact List.mem_of_getElem? hk
  · cases hcond

private theorem depth_pos_of_contains
    (hbr : Branch.ofInstrs (Step.instrs ctx.steps) = .ok ctx.branches) (hzero : EndsFree ctx.steps)
    {i : Nat} {st : Step} (hst : ctx.steps[i]? = some st) (hop : ∀ o, st.instr ≠ .op o)
    (hb : b ∈ ctx.branches) (hcont : b.contains i = true) :
    0 < ((Step.instrs ctx.steps).take i).foldl depthAfter 0 := by
  obtain ⟨hi, -⟩ := List.getElem?_eq_some_iff.mp hst
  obtain ⟨h, hrun⟩ := exists_heights hbr hzero 0 hi.le
  rw [Step.instrs, ← List.map_take, Nat.pos_iff_ne_zero]
  intro hdepth
  apply not_contains_of_levels hbr hzero hst (hop _) (hop _) hrun ?_ b hb hcont
  rw [← List.length_eq_zero_iff, Heights.length_levels hrun]
  exact hdepth

private theorem armDelta_weighed (hbr : Branch.ofInstrs (Step.instrs ctx.steps) = .ok ctx.branches)
    (hzero : EndsFree ctx.steps) {ws : List Step} (hlen : ws.length = ctx.steps.length)
    {r : Routing} (hws : ∀ i st w, ctx.steps[i]? = some st → ws[i]? = some w →
      Settled r.names (0 < ((Step.instrs ctx.steps).take i).foldl depthAfter 0) st.instr →
        w.delta = st.delta) (hc : c ∈ ctx.conditionals) (hsettled : ctx.ArmsSettled r c)
    (hb : b = c.first ∨ c.second = some b) :
    { ctx with steps := ws }.armDelta b = ctx.armDelta b := by
  obtain ⟨hfirst, hsecond⟩ := mem_branches hc
  have hmem : b ∈ ctx.branches := by
    rcases hb with rfl | hb
    · exact hfirst
    · exact hsecond b hb
  apply armDelta_congr hlen
  intro i st w hcont hst hw
  have hinside : c.contains i = true := by
    rw [Conditional.contains, Bool.or_eq_true]
    rcases hb with rfl | hb
    · exact .inl hcont
    · rw [hb]
      exact .inr hcont
  obtain ⟨hsteady, hwrite⟩ := hsettled (st, i) (List.mem_zipIdx_iff_getElem?.mpr hst) hinside
  apply hws i st w hst hw
  refine ⟨hsteady, fun name hname => hwrite name (assigned?_iff.mpr hname), fun name hread => ?_⟩
  apply depth_pos_of_contains hbr hzero hst ?_ hmem hcont
  rcases hread with hread | hread <;> rw [hread] <;> exact nofun

end Context

private theorem exists_arms_of_expansion {ctx ctx' : Context} {r : Routing} {setup : List Step}
    (hanalysed : Session.Analysed ctx) (hsetup : IsCode setup)
    (hbr' : Branch.ofInstrs (Step.instrs ctx'.steps) = .ok ctx'.branches)
    (hgenuine : ∀ st ∈ ctx'.steps, st.Genuine)
    (hexpansion : Expansion r.names 0 (Step.instrs setup ++ Step.instrs ctx.steps)
      (Step.instrs ctx'.steps)) {c : Context.Conditional} (hc : c ∈ ctx.conditionals) :
    ∃ c' ∈ ctx'.conditionals,
      markersBefore ctx'.steps c'.endIf = markersBefore ctx.steps c.endIf ∧
      (ctx.ArmsSettled r c →
        ctx'.armDelta c'.first = ctx.armDelta c.first ∧ ctx'.isUneven c' = ctx.isUneven c) := by
  have hfree := endsFree_of_genuine hanalysed.genuine
  obtain ⟨front, back, hsteps, hfront, hback⟩ := hexpansion.split
  rw [Expansion.foldl_depthAfter_of_straight hsetup.straight] at hback
  obtain rfl := hfront.eq_of_straight hsetup.straight
  obtain ⟨as, bs, heq, has, hbs⟩ := List.map_eq_append_iff.mp hsteps
  rw [heq] at hgenuine
  obtain ⟨ws, hws, hweighs, hweight⟩ := hback.exists_weights rfl hbs hanalysed.genuine
    fun b hb => hgenuine b (List.mem_append_right _ hb)
  obtain ⟨weighed, hweighed⟩ : ∃ weighed : Context, weighed = { ctx with steps := ws } := ⟨_, rfl⟩
  have hwsteps : weighed.steps = ws := by rw [hweighed]
  have hwbr : Branch.ofInstrs (Step.instrs weighed.steps) = .ok weighed.branches := by
    rw [hweighed, hws]
    exact hanalysed.branches
  have hwc : c ∈ weighed.conditionals := by
    rw [hweighed]
    exact hc
  -- a step in front of the weighed program adds what the code in front adds
  obtain ⟨s₀, hs₀, hdelta⟩ : ∃ s₀ : Step, (∀ o, s₀.instr = .op o → o.isMarker = false) ∧
      s₀.delta = (as.map (·.delta)).sum := by
    refine ⟨{ Step.of (.push []) with delta := (as.map (·.delta)).sum }, ?_, rfl⟩
    intro o ho
    cases ho
  have hall : Weighs (s₀ :: weighed.steps) ctx'.steps := by
    rw [heq, hwsteps]
    apply Weighs.plain hs₀ ?_ hdelta hweighs
    intro b hb o ho
    have hmem : b.instr ∈ as.map (·.instr) := List.mem_map_of_mem hb
    rw [has] at hmem
    exact (hsetup.straight _ hmem).not_marker o ho
  obtain ⟨c', hc', hmarkers, hfirst, hsecond⟩ := Context.exists_same_arms hwbr hbr'
    (endsFree_of_genuine (heq ▸ hgenuine)) hs₀ hall hwc
  have hlen : ws.length = ctx.steps.length := by
    have hlen := congrArg List.length hws
    rwa [Step.instrs, Step.instrs, List.length_map, List.length_map] at hlen
  refine ⟨c', hc', ?_, fun hsettled => ?_⟩
  · unfold Step.instrs at hws
    rw [hmarkers, hwsteps, markersBefore, markersBefore, Step.instrs, Step.instrs, List.map_take,
      List.map_take, hws]
  · have harm {b : Branch} (hb : b = c.first ∨ c.second = some b) :
        weighed.armDelta b = ctx.armDelta b := by
      rw [hweighed]
      exact Context.armDelta_weighed hanalysed.branches hfree hlen hweight hc hsettled hb
    rw [harm (.inl rfl)] at hfirst
    refine ⟨hfirst, ?_⟩
    rw [Context.isUneven, Context.isUneven, hfirst, hsecond]
    cases hsome : c.second with
    | none => rfl
    | some b => rw [Option.map_some, Option.map_some, harm (.inr hsome)]

/-- Each conditional of an analysed program that is resolved without a failure is still there, as
the one that ends at the same marker; and if what its arms add is settled before, they add the same.
-/
theorem resolve_keeps_arms {p : Program} {o : Options} {opt : Option Peephole.Optimizer}
    (hopt : ∀ q, opt = some q → q.enabled = false) {s : Session}
    (h : resolve (.ofProgram p) o opt p.ops = { session := s, failure := none }) :
    ∃ ctx r s₁ ctx',
      (analyse o 0).run { steps := Step.ofList p.ops, table := .ofProgram p } = .ok (ctx, r) s₁ ∧
      Context.of (.ofProgram p) o (Step.ofList (Step.instrs s.steps)) = .ok ctx' ∧
      ∀ c ∈ ctx.conditionals, ∃ c' ∈ ctx'.conditionals,
        markersBefore ctx'.steps c'.endIf = markersBefore ctx.steps c.endIf ∧
        (ctx.ArmsSettled r c →
          ctx'.armDelta c'.first = ctx.armDelta c.first ∧ ctx'.isUneven c' = ctx.isUneven c) := by
  have hsound : Session.Sound { steps := Step.ofList p.ops, table := .ofProgram p } :=
    ⟨Step.genuine_ofList p.ops, Table.parameterFree_ofProgram p⟩
  obtain ⟨ctx, r, s₁, setup, hanalyse, hcode, hresolving, hfinished⟩ :=
    Session.of_run_resolveDeep hopt hsound (resolveWithin_eq_iff.mp h)
  obtain ⟨t, steps, ctx₀, hctx₀, hinstrs⟩ := hfinished.context
  obtain ⟨ctx', hctx'⟩ : ∃ ctx', Context.of (.ofProgram p) o (Step.ofList (Step.instrs s.steps)) =
      .ok ctx' := by
    apply Context.exists_of_instrs hctx₀ ((Step.instrs_ofList _).trans hinstrs)
    intro st hst
    obtain ⟨i, hi, rfl⟩ := List.mem_map.mp hst
    obtain ⟨st', hst', rfl⟩ := List.mem_map.mp hi
    exact hfinished.reads st' hst'
  refine ⟨ctx, r, s₁, ctx', hanalyse, hctx', fun c hc => ?_⟩
  apply exists_arms_of_expansion (hsound.of_analyse hanalyse) hcode (Context.branches_of hctx')
    (Context.genuine_steps hctx' (Step.genuine_ofList _)) ?_ hc
  obtain ⟨branches, -, rfl⟩ := Context.of_cases hctx'
  rw [Context.instrs_refined, Step.instrs_ofList]
  exact hresolving.expansion

/-- The context that a program is analysed in, and what is routed. -/
def analysed? (p : Program) : Option (Context × Routing) :=
  match (analyse {} 0).run { steps := Step.ofList p.ops, table := .ofProgram p } with
  | .ok a _ => some a
  | .error _ _ => none

private theorem exists_of_analysed? {p : Program} {a : Context × Routing}
    (h : analysed? p = some a) :
    ∃ s, (analyse {} 0).run { steps := Step.ofList p.ops, table := .ofProgram p } = .ok a s := by
  unfold analysed? at h
  split at h
  · next s hs =>
    cases h
    exact ⟨s, hs⟩
  · cases h

/-- Reads its initial stack after an uneven conditional, also in the arms of an even one. -/
def evenAfterUneven : Program where
  stack := [[97], [99]]
  ops := [.assume [99], .op .opIf, .push [5], .op .opEndIf, .assume [99], .op .opIf, .assume [97],
    .op .opElse, .push [6], .op .opEndIf]

/-- Even arms behind uneven ones. -/
theorem resolve_keeps_arms_even_after_uneven :
    ∃ s ctx r s₁ ctx',
      resolve (.ofProgram evenAfterUneven) {} none evenAfterUneven.ops =
        { session := s, failure := none } ∧
      (analyse {} 0).run { steps := Step.ofList evenAfterUneven.ops
                           table := .ofProgram evenAfterUneven } = .ok (ctx, r) s₁ ∧
      Context.of (.ofProgram evenAfterUneven) {} (Step.ofList (Step.instrs s.steps)) = .ok ctx' ∧
      r.names = [[97], [99]] ∧
      ∃ c ∈ ctx.conditionals, ctx.ArmsSettled r c ∧ ctx.isUneven c = false ∧
        ∃ c' ∈ ctx'.conditionals, ctx'.armDelta c'.first = ctx.armDelta c.first ∧
          ctx'.isUneven c' = false := by
  have hfailure :
      (resolve (.ofProgram evenAfterUneven) {} none evenAfterUneven.ops).failure = none := by
    cbv
  have htest : ((analysed? evenAfterUneven).map fun a => (a.2.names, a.1.conditionals.any fun c =>
      decide (a.1.ArmsSettled a.2 c) && !a.1.isUneven c)) = some ([[97], [99]], true) := by cbv
  have hresolve : resolve (.ofProgram evenAfterUneven) {} none evenAfterUneven.ops =
      { session := _, failure := none } := congrArg (Resolution.mk _) hfailure
  obtain ⟨ctx, r, s₁, ctx', hanalyse, hctx', harms⟩ := resolve_keeps_arms (by simp) hresolve
  rw [analysed?, hanalyse] at htest
  obtain ⟨hnames, hany⟩ := Prod.mk.inj (Option.some.inj htest)
  obtain ⟨c, hc, heven⟩ := List.any_eq_true.mp hany
  rw [Bool.and_eq_true, decide_eq_true_eq, Bool.not_eq_true'] at heven
  obtain ⟨c', hc', -, hkeep⟩ := harms c hc
  obtain ⟨hfirst, hsame⟩ := hkeep heven.1
  exact ⟨_, ctx, r, s₁, ctx', hresolve, hanalyse, hctx', hnames, c, hc, heven.1, heven.2, c', hc',
    hfirst, hsame.trans heven.2⟩

/-- Writes a name in front of a conditional and in one of its arms; both arms end one item
higher. -/
def storedInOneArm : Program where
  stack := [[97], [99]]
  ops := [.op .zero, .assign [120], .assume [99], .op .opIf, .push [5], .assign [120], .op .opElse,
    .push [6], .op .opEndIf, .assume [97], .push [9], .op .equal]

/-- A conditional that the analysis counts as even is uneven in the resolved program, where the
write in its first arm takes an item away. -/
theorem uneven_of_stored_in_one_arm :
    ∃ s ctx r s₁ ctx',
      resolve (.ofProgram storedInOneArm) {} none storedInOneArm.ops =
        { session := s, failure := none } ∧
      (analyse {} 0).run
          { steps := Step.ofList storedInOneArm.ops, table := .ofProgram storedInOneArm } =
        .ok (ctx, r) s₁ ∧
      Context.of (.ofProgram storedInOneArm) {} (Step.ofList (Step.instrs s.steps)) = .ok ctx' ∧
      ctx.uneven = [] ∧ ctx'.uneven ≠ [] := by
  have hfailure :
      (resolve (.ofProgram storedInOneArm) {} none storedInOneArm.ops).failure = none := by
    cbv
  have heven : ((analysed? storedInOneArm).map fun a => a.1.uneven.isEmpty) = some true := by cbv
  have huneven : ((Context.of (.ofProgram storedInOneArm) {} (Step.ofList (Step.instrs
      (resolve (.ofProgram storedInOneArm) {} none storedInOneArm.ops).session.steps))).toOption.map
        fun ctx => ctx.uneven.isEmpty) = some false := by cbv
  obtain ⟨⟨ctx, r⟩, hsome, hempty⟩ := Option.map_eq_some_iff.mp heven
  obtain ⟨s₁, hanalyse⟩ := exists_of_analysed? hsome
  cases hctx' : Context.of (.ofProgram storedInOneArm) {} (Step.ofList (Step.instrs
      (resolve (.ofProgram storedInOneArm) {} none storedInOneArm.ops).session.steps)) with
  | error c =>
    rw [hctx'] at huneven
    cases huneven
  | ok ctx' =>
    rw [hctx'] at huneven
    refine ⟨_, ctx, r, s₁, ctx', congrArg (Resolution.mk _) hfailure, hanalyse, hctx', ?_, ?_⟩
    · exact List.isEmpty_iff.mp hempty
    · intro hnil
      rw [Except.toOption, Option.map_some, hnil] at huneven
      cases huneven

end NamedStack
