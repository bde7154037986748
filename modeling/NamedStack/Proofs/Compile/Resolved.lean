import NamedStack.Compile.Unit
import NamedStack.Proofs.Resolve.Termination

/-!
# Programs that are resolved have no references

Resolving a program comes to an end, whatever its names stand for and however it is optimized, as
long as no name stands for a parameter. If it succeeds then no instruction of the result refers to a
name, in the program itself or in any inner script. So a program that is compiled with its names
resolved can always be serialized as far as references are concerned.
-/

namespace NamedStack

/-- Whether an instruction stands in a program or, at any depth, in an inner script of it. -/
inductive Instr.Within (i : Instr) : List Instr → Prop
  | here {ops : List Instr} (h : i ∈ ops) : Within i ops
  | inner {ops inside : List Instr} (h : .inner inside ∈ ops) (hi : Within i inside) : Within i ops

open NamedStack.Measure (references referencesList referencesList_eq_zero_iff)

private theorem Instr.Within.isReference {i : Instr} {ops : List Instr} (h : i.Within ops)
    (hops : referencesList ops = 0) : i.isReference = false := by
  induction h with
  | here hi =>
    have hzero := referencesList_eq_zero_iff.mp hops i hi
    cases i with
    | op | push | inner => rfl
    | assume | assign | var | call =>
      rw [references] at hzero
      omega
  | inner hinside _ ih =>
    have hzero := referencesList_eq_zero_iff.mp hops _ hinside
    rw [references] at hzero
    exact ih hzero

/-! ### Serialized programs -/

namespace Script

private theorem kind_of_assemble {ps : List Piece} {p : Problem} (h : assemble ps = .error p) :
    p.kind ≠ .unresolved := by
  unfold assemble at h
  split at h
  · cases h
  · cases h
    exact nofun

mutual

/-- An instruction without references is not refused for one. -/
theorem kind_of_piece : ∀ (i : Instr) (index : Nat) (p : Problem), references i = 0 →
    piece index i = .error p → p.kind ≠ .unresolved
  | .op o, index, p, _, h => by cases h
  | .push d, index, p, _, h => by cases h
  | .inner ops, index, p, hi, h => by
    rw [references] at hi
    rw [piece] at h
    split at h
    · cases h
    · next q hq =>
      cases h
      cases hpieces : pieces 0 ops with
      | error e =>
        rw [hpieces] at hq
        cases hq
        exact kind_of_pieces ops 0 q hi hpieces
      | ok ps =>
        rw [hpieces] at hq
        exact kind_of_assemble (p := q) hq
  | .assume _, _, _, hi, _ | .assign _, _, _, hi, _ | .var _, _, _, hi, _
  | .call _ _, _, _, hi, _ => by
    rw [references] at hi
    omega

/-- A program without references is not refused for one. -/
theorem kind_of_pieces : ∀ (ops : List Instr) (index : Nat) (p : Problem), referencesList ops = 0 →
    pieces index ops = .error p → p.kind ≠ .unresolved
  | [], index, p, _, h => by cases h
  | i :: rest, index, p, hops, h => by
    rw [referencesList] at hops
    rw [pieces] at h
    split at h
    · next q hq =>
      cases h
      exact kind_of_piece i index p (by omega) hq
    · split at h
      · next q hq =>
        cases h
        exact kind_of_pieces rest (index + 1) p (by omega) hq
      · cases h

end

private theorem kind_of_serialize {ops : List Instr} {p : Problem} (hops : referencesList ops = 0)
    (h : serialize ops = .error p) : p.kind ≠ .unresolved := by
  unfold serialize at h
  cases hpieces : pieces 0 ops with
  | error e =>
    rw [hpieces] at h
    cases h
    exact kind_of_pieces ops 0 p hops hpieces
  | ok ps =>
    rw [hpieces] at h
    exact kind_of_assemble h

end Script

/-! ### Resolved programs -/

/-- A program whose names are resolved is compiled or refused for a regular reason. -/
theorem Program.gives_compileResolved (name : Name) (p : Program) (o : Options) :
    Gives (p.compileResolved name o).1 fun _ => True := by
  have hfree := Table.parameterFree_ofProgram p
  unfold compileResolved
  dsimp only
  cases hfailure : (resolve (Table.ofProgram p) o (some { enabled := o.peephole }) p.ops).failure
    with
  | some f => exact (regular_of_resolveWithin hfree hfailure).note _
  | none =>
    -- what is open is kept by the optimizer
    have hopenings := (Peephole.Optimizer.run_reduces { enabled := o.peephole }
      (resolve (Table.ofProgram p) o (some { enabled := o.peephole })
        p.ops).session.steps).openings_eq
    have hoptimized := (Measure.referencesList_congr hopenings).trans
      (references_of_resolveWithin hfailure)
    dsimp only
    split
    · trivial
    · next e he => exact Script.kind_of_serialize (p := e) hoptimized he

/-- A program that is compiled with its names resolved is not refused for a reference that is
left. -/
theorem Program.kind_of_compile {name : Name} {p : Program} {o : Options}
    (ho : o.inlineNames = true) {e : Problem}
    (h : (p.compile name o).outcome = .error (.problem e)) : e.kind ≠ .unresolved := by
  have hgives := p.gives_compileResolved name o
  unfold compile produce at h
  rw [if_pos ho] at h
  split at h
  · cases h
  · next e' tally hresult =>
    cases h
    rw [hresult] at hgives
    exact hgives
  · cases h
    exact nofun

/-- Resolving a program comes to an end, with or without an optimizer, unless putting contents of
parameters and expansions of calls in place goes on forever: all bounds that are large enough come
to the same result, which is not that one of them was reached. If it succeeds, whatever the bounds,
then no instruction refers to a name, in the program or at any depth in its inner scripts. Without
parameters nothing goes on forever, and the bounds read off the program are large enough. A program
that is compiled with its names resolved is never refused for a reference that is left. -/
theorem resolve_leaves_no_reference :
    (∀ (t : Table) (o : Options) (opt : Option Peephole.Optimizer) (ops : List Instr),
      (∀ i ∈ ops, t.Founded i) → ∃ r : Resolution, r.failure ≠ some (.fault .endless) ∧
        ∃ bound, ∀ e ≥ bound, resolveWithin e t o opt ops = r) ∧
      (∀ (t : Table) (o : Options) (opt : Option Peephole.Optimizer) (ops : List Instr) (e : Nat),
        (resolveWithin e t o opt ops).failure = none → ∀ i : Instr,
          i.Within (Step.instrs (resolveWithin e t o opt ops).session.steps) →
            i.isReference = false) ∧
      (∀ (t : Table) (o : Options) (opt : Option Peephole.Optimizer) (ops : List Instr),
        t.ParameterFree → (∀ i, t.Founded i) ∧
          (resolve t o opt ops).failure ≠ some (.fault .endless) ∧
          ∀ e, resolveWithin e t o opt ops = resolve t o opt ops) ∧
      ∀ (name : Name) (p : Program) (o : Options), o.inlineNames = true →
        ∀ e, (p.compile name o).outcome = .error (.problem e) → e.kind ≠ .unresolved := by
  refine ⟨fun t o opt ops h => ?_, fun t o opt ops e hnone i hi => ?_, fun t o opt ops ht => ?_,
    fun name p o ho e he => Program.kind_of_compile ho he⟩
  · obtain ⟨bound, hbound⟩ := exists_regular_of_resolveWithin o opt h
    have hend : (resolveWithin bound t o opt ops).failure ≠ some (.fault .endless) :=
      fun hf => hbound _ hf rfl
    exact ⟨_, hend, bound, fun e he => resolveWithin_eq_of_le he hend⟩
  · exact hi.isReference (references_of_resolveWithin hnone)
  · exact ⟨Measure.founded_of_parameterFree ht, fun hf => regular_of_resolveWithin ht hf rfl,
      resolveWithin_eq_resolve ht⟩

/-- A table with a parameter that stands for a call with another one as its argument, beside a
function that holds references and a call in an inner script. -/
private def nestedCalls : Table :=
  let functions : Program :=
    { stack := [[97]]
      functions :=
        [{ name := [102], params := [[120]]
           body := [.inner [.push [5], .assign [121], .call [103] [[.var [121]]], .op .verify],
             .var [120]] },
          { name := [103], params := [[122]]
            body := [.var [122], .op .one, .op (.binary .add)] }] }
  ((Table.ofProgram functions).declare ⟨[112], .argument,
    .content [.call [102] [[.var [113]]]]⟩).declare
    ⟨[113], .argument, .content [.call [103] [[.assume [97]]]]⟩

/-- A parameter that stands for nested calls. -/
theorem resolve_leaves_no_reference_nested_calls :
    nestedCalls.Founded (.var [112]) ∧
      (∃ bound, ∀ e ≥ bound,
        Step.instrs (resolveWithin e nestedCalls {} (some ⟨true, 1⟩) [.var [112]]).session.steps =
          [.inner [.op (.small ⟨5, by decide⟩), .op (.unary .add1)], .op .swap,
            .op (.unary .add1)]) ∧
      (Instr.op (.small ⟨5, by decide⟩)).isReference = false ∧
      (Table.ofProgram {}).Founded (.var [112]) ∧
      ({ ops := [.assume [97]] : Program }.compile [] {}).outcome =
        .error (.problem ⟨.undeclared [97] 0, [.context (text "inline")]⟩) ∧
      (⟨.undeclared [97] 0, [.context (text "inline")]⟩ : Problem).kind ≠ .unresolved := by
  have hfounded : nestedCalls.Founded (.var [112]) := Table.founded_iff.mpr ⟨6, by decide +kernel⟩
  have hfour : (resolveWithin 4 nestedCalls {} (some ⟨true, 1⟩) [.var [112]]).failure = none ∧
      Step.instrs (resolveWithin 4 nestedCalls {} (some ⟨true, 1⟩) [.var [112]]).session.steps =
        [.inner [.op (.small ⟨5, by decide⟩), .op (.unary .add1)], .op .swap,
          .op (.unary .add1)] := by decide +kernel
  have hrefused : ({ ops := [.assume [97]] : Program }.compile [] {}).outcome =
      .error (.problem ⟨.undeclared [97] 0, [.context (text "inline")]⟩) := by decide +kernel
  obtain ⟨hends, hclears, hfree, hcompile⟩ := resolve_leaves_no_reference
  refine ⟨hfounded, ?_, ?_, (hfree _ {} none [] (Table.parameterFree_ofProgram {})).1 _, hrefused,
    hcompile [] _ {} rfl _ hrefused⟩
  · obtain ⟨r, -, bound, hbound⟩ := hends nestedCalls {} (some ⟨true, 1⟩) [.var [112]]
      (List.forall_mem_singleton.mpr hfounded)
    refine ⟨bound, fun e he => ?_⟩
    rw [hbound e he, ← hbound (max bound 4) (Nat.le_max_left bound 4),
      resolveWithin_eq_of_le (Nat.le_max_right bound 4) (by rw [hfour.1]; exact nofun)]
    exact hfour.2
  · refine hclears nestedCalls {} (some ⟨true, 1⟩) [.var [112]] 4 hfour.1 _ ?_
    rw [hfour.2]
    exact .inner List.mem_cons_self (.here List.mem_cons_self)

/-- A table in which a parameter stands for a read of itself. -/
private def parameterLoop : Table :=
  (Table.ofProgram {}).declare ⟨[120], .argument, .content [.var [120]]⟩

private def loopSession (tally : Tally) (replacements : Nat) : Session :=
  { steps := Step.ofList [.var [120]], table := parameterLoop, tally, replacements }

private theorem run_settle_loop (next : SessionM Unit) (inner : Session.InnerResult) (n : Nat)
    (tally : Tally) (replacements : Nat) :
    ∃ s, (Session.settle next (Session.pass inner {} none) n).run (loopSession tally replacements) =
      .error (.fault .endless) s := by
  induction n generalizing tally replacements with
  | zero => exact ⟨_, rfl⟩
  | succ n ih =>
    -- a pass comes back to where it started, but for what is counted
    have hpass : (Session.pass inner {} none).run (loopSession tally replacements) =
        .ok true (loopSession
          { tally with passes := tally.passes + 1, replaced := tally.replaced + 1 }
          (replacements + 1)) := by
      with_unfolding_all rfl
    obtain ⟨s, hs⟩ := ih { tally with passes := tally.passes + 1, replaced := tally.replaced + 1 }
      (replacements + 1)
    refine ⟨s, ?_⟩
    rw [Session.settle, Session.run_bind_ok (EStateM.run_get ..), Session.run_bind_ok hpass]
    exact hs

/-- A parameter that stands for a read of itself is put in its own place forever: every bound is
reached. -/
theorem resolve_parameterLoop_endless :
    parameterLoop.lookup? [120] = some ⟨[120], .argument, .content [.var [120]]⟩ ∧ ∀ e,
      (resolveWithin e parameterLoop {} none [.var [120]]).failure = some (.fault .endless) := by
  refine ⟨rfl, fun e => ?_⟩
  have hwith (inner : Session.InnerResult) : ∃ s,
      (Session.resolveWith inner {} none e).run (loopSession {} 0) =
        .error (.fault .endless) s := by
    have hroute : (Session.route {}).run (loopSession {} 0) = .ok () (loopSession {} 0) := by
      with_unfolding_all rfl
    have hcalls : (Session.expandCalls {} e).run (loopSession {} 0) = .ok () (loopSession {} 0) :=
      Session.run_expandCalls (List.forall_mem_singleton.mpr rfl)
    rw [Session.resolveWith, Session.run_bind_ok hcalls, Session.run_bind_ok hroute]
    exact run_settle_loop _ inner _ {} 0
  have hdeep (n : Nat) : ∃ s,
      (Session.resolveDeep {} none e n).run (loopSession {} 0) = .error (.fault .endless) s := by
    cases n with
    | zero => exact hwith _
    | succ n => exact hwith _
  obtain ⟨s, hs⟩ := hdeep (Measure.scriptDepth parameterLoop [.var [120]] + e)
  unfold EStateM.run loopSession at hs
  rw [resolveWithin, hs]

end NamedStack
