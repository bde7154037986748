import NamedStack.Proofs.Resolve.Accepted
import NamedStack.Proofs.Resolve.Measure

/-!
# No reference is left

A pass that replaces nothing has found no read and no call, and each write that it left is needed by
a later read; so it has found no write either. An inner script that it left is one that has come out
of its own passes as it was. Hence a program that was resolved has no reference at any depth,
whatever the bounds were and whatever its names stood for.
-/

namespace NamedStack.Session

open NamedStack.Measure

variable {s s' : Session} {o : Options} {opt : Option Peephole.Optimizer} {e n : Nat}
  {ctx : Context} {inner : InnerResult}

/-- What is left where a pass replaces nothing: no reference, or a write that a later read needs. -/
def Idle (ctx : Context) (i : Nat) (instr : Instr) : Prop :=
  Measure.references instr = 0 ∨ ∃ name, instr = .assign name ∧
    (0 < ctx.reads.countAfter name i ∨ 0 < ctx.assumptions.countAfter name i)

/-- Whether inner scripts are replaced by inner scripts, and one that stays has no reference. -/
structure InnerClears (inner : InnerResult) : Prop where
  inward : Inward inner
  references : ∀ ops s s', (inner ops).run s = .ok none s' → referencesList ops = 0

variable {steps : List Step}

private theorem exists_read {t : Table} (hctx : Context.of t o steps = .ok ctx) {j : Nat}
    {name : Name} (h : (j, name) ∈ ctx.reads ∨ (j, name) ∈ ctx.assumptions) :
    ∃ st, ctx.steps[j]? = some st ∧ ∃ x, st.instr = .assume x ∨ st.instr = .var x := by
  obtain ⟨branches, -, rfl⟩ := Context.of_cases hctx
  obtain ⟨st, hst, hread⟩ : ∃ st, steps[j]? = some st ∧
      (Context.variableRead? t st.instr = some name ∨ Context.assumed? t st.instr = some name) := by
    rcases h with h | h
    · obtain ⟨st, hst, hname⟩ := mem_occurrences.mp h
      exact ⟨st, hst, .inl hname⟩
    · obtain ⟨st, hst, hname⟩ := mem_occurrences.mp h
      exact ⟨st, hst, .inr hname⟩
  refine ⟨Context.refine steps j st, by rw [Context.getElem?_refined, hst]; rfl, ?_⟩
  rw [Context.instr_refine]
  cases hi : st.instr with
  | assume x => exact ⟨x, .inl rfl⟩
  | var x => exact ⟨x, .inr rfl⟩
  | _ => simp [hi, Context.variableRead?, Context.assumed?] at hread

/-- Where nothing is left to replace there is no reference. -/
theorem references_of_idle {t : Table} (hctx : Context.of t o steps = .ok ctx)
    (h : ∀ j st, ctx.steps[j]? = some st → Idle ctx j st.instr) :
    referencesList (Step.instrs ctx.steps) = 0 := by
  have hread (j : Nat) (name : Name) :
      ¬ ((j, name) ∈ ctx.reads ∨ (j, name) ∈ ctx.assumptions) := by
    intro hmem
    obtain ⟨st, hst, x, hx⟩ := exists_read hctx hmem
    rcases h j st hst with hzero | ⟨y, hy, -⟩
    · rcases hx with hx | hx <;> simp [hx, Measure.references] at hzero
    · rcases hx with hx | hx <;> simp [hx] at hy
  rw [referencesList_eq_zero_iff]
  intro instr hinstr
  obtain ⟨st, hst, rfl⟩ := List.mem_map.mp hinstr
  obtain ⟨i, hi⟩ := List.mem_iff_getElem?.mp hst
  rcases h i st hi with hzero | ⟨name, -, hlater⟩
  · exact hzero
  · -- a write is left only for a later read, and there is none
    have hreads : ctx.reads.countAfter name i = 0 :=
      countAfter_eq_zero_iff.mpr fun j hj => absurd (.inl hj) (hread j name)
    have hassumptions : ctx.assumptions.countAfter name i = 0 :=
      countAfter_eq_zero_iff.mpr fun j hj => absurd (.inr hj) (hread j name)
    omega

/-! ### One pass -/

private theorem Visited.idle {i : Nat} {instr : Instr} (h : Visited inner ctx i s instr none s')
    (hinner : InnerClears inner) : Idle ctx i instr := by
  cases h with
  | inner hrun =>
    left
    rw [Measure.references]
    exact hinner.references _ _ _ hrun
  | @kept name hlater => exact .inr ⟨name, rfl, hlater⟩
  | plain hnone => exact .inl hnone

/-- Where the search finds nothing to replace, what is left is idle. -/
theorem idle_of_run_firstReplacement (hinner : InnerClears inner)
    (h : (firstReplacement inner ctx 0 ctx.steps).run s = .ok none s') :
    s.Keeps s' ∧ ∀ j st, ctx.steps[j]? = some st → Idle ctx j st.instr := by
  obtain ⟨hkeeps, hvisited⟩ := visited_of_run_firstReplacement hinner.inward h
  refine ⟨hkeeps, fun j st hst => ?_⟩
  obtain ⟨_, _, -, hvisit⟩ := hvisited j st hst
  exact Nat.zero_add j ▸ hvisit.idle hinner

/-- A pass that replaces nothing leaves a program without references. -/
theorem references_of_run_pass (hinner : InnerClears inner)
    (h : (pass inner o opt).run s = .ok false s') : s'.references = 0 := by
  obtain ⟨ctx, s₁, hctx, hfirst⟩ := of_run_pass_false h
  obtain ⟨hof, hsteps, -⟩ := of_run_currentContext hctx
  obtain ⟨hkeeps, hidle⟩ := idle_of_run_firstReplacement hinner hfirst
  rw [Session.references, hkeeps.steps, hsteps]
  exact references_of_idle hof hidle

/-! ### All passes -/

/-- An inner script stays only if the program in it has no reference. -/
theorem innerClears_innerWith {run : SessionM Unit}
    (hrun : ∀ s s', run.run s = .ok () s' → s'.references = 0) : InnerClears (innerWith run) := by
  refine ⟨inward_innerWith run, fun ops s s' h => ?_⟩
  rw [run_innerWith] at h
  split at h
  · next child hchild =>
    have hzero : referencesList (Step.instrs child.steps) = 0 := hrun _ child hchild
    by_cases hsame : Step.instrs child.steps = ops
    · exact hsame ▸ hzero
    · simp [hsame] at h
  · cases h

/-- No inner script stays if all of them fail. -/
theorem innerClears_throw (f : Failure) : InnerClears fun _ => throw f := by
  refine ⟨inward_throw _, fun ops s s' h => ?_⟩
  cases h

/-- A program that was resolved has no reference, however its inner scripts are resolved. -/
theorem references_of_run_resolveWith (hinner : InnerClears inner)
    (h : (resolveWith inner o opt e).run s = .ok () s') : s'.references = 0 := by
  obtain ⟨_, s₁, _, h₁⟩ := exists_of_run_bind h
  obtain ⟨_, s₂, _, h₂⟩ := exists_of_run_bind h₁
  obtain ⟨_, s₃, hget, h₃⟩ := exists_of_run_bind h₂
  refine of_run_resolve (I := fun _ => True) (F := fun s => s.references = 0)
    (fun s s' b _ hpass => ?_) trivial h₃
  cases b with
  | true => trivial
  | false => exact references_of_run_pass hinner hpass

/-- A program that was resolved has no reference, however deep inner scripts were allowed to be
nested. -/
theorem references_of_run_resolveDeep (h : (resolveDeep o opt e n).run s = .ok () s') :
    s'.references = 0 := by
  induction n generalizing s s' with
  | zero => exact references_of_run_resolveWith (innerClears_throw _) h
  | succ n ih => exact references_of_run_resolveWith (innerClears_innerWith fun _ _ => ih) h

end NamedStack.Session
