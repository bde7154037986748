import NamedStack.Proofs.Resolve.Visits

/-!
# Programs that are resolved without a failure

What has happened to a session if its passes did not fail: the program still stands for the one at
the start, with straight code in place of references, and at the end nothing is left to be read.
-/

namespace NamedStack.Session

variable {s s' : Session} {o : Options} {e : Nat} {ctx : Context} {i : Nat}

/-! ### One pass -/

/-- How far a session has come with a program, given the names that had slots at the start. -/
structure Resolving (ops : List Instr) (slots : List Name) (s : Session) :
    Prop extends Sound s where
  subset : s.slots ⊆ slots
  expansion : Expansion slots 0 ops (Step.instrs s.steps)

/-- Whether nothing is left to be read in a program, and it has a context. -/
structure Finished (o : Options) (s : Session) : Prop where
  reads : ∀ st ∈ s.steps, ∀ name, st.instr ≠ .assume name ∧ st.instr ≠ .var name
  context : ∃ t steps ctx, Context.of t o steps = .ok ctx ∧ Step.instrs s.steps = Step.instrs steps

variable {b : Bool} {inner : InnerResult} {opt : Option Peephole.Optimizer} {n : Nat}

/-- The parts of a pass. -/
theorem of_run_pass (h : (pass inner o opt).run s = .ok b s') :
    ∃ ctx s₁ r s₂, (currentContext o).run (s.optimized opt) = .ok ctx s₁ ∧
      (firstReplacement inner ctx 0 ctx.steps).run s₁ = .ok r s₂ ∧
      ((r = none ∧ b = false ∧ s' = s₂) ∨
        ∃ i new n, r = some (i, new, n) ∧ b = true ∧ (splice i n new).run s₂ = .ok () s') := by
  rw [run_pass] at h
  obtain ⟨ctx, s₁, hctx, h₁⟩ := exists_of_run_bind h
  obtain ⟨r, s₂, hfirst, h₂⟩ := exists_of_run_bind h₁
  refine ⟨ctx, s₁, r, s₂, hctx, hfirst, ?_⟩
  cases r with
  | none =>
    cases h₂
    exact .inl ⟨rfl, rfl, rfl⟩
  | some r =>
    obtain ⟨i, new, n⟩ := r
    obtain ⟨_, s₃, hsplice, h₃⟩ := exists_of_run_bind h₂
    cases h₃
    exact .inr ⟨i, new, n, rfl, rfl, hsplice⟩

/-- A pass that replaces nothing has found a context and nothing to replace in it. -/
theorem of_run_pass_false (h : (pass inner o opt).run s = .ok false s') :
    ∃ ctx s₁, (currentContext o).run (s.optimized opt) = .ok ctx s₁ ∧
      (firstReplacement inner ctx 0 ctx.steps).run s₁ = .ok none s' := by
  obtain ⟨ctx, s₁, r, s₂, hctx, hfirst, ⟨rfl, -, rfl⟩ | ⟨_, _, _, -, htrue, -⟩⟩ := of_run_pass h
  · exact ⟨ctx, s₁, hctx, hfirst⟩
  · cases htrue

variable {ops : List Instr} {slots : List Name}

/-- The instructions in front of a run of steps, the run, and what comes after it. -/
theorem instrs_split (steps : List Step) (k n : Nat) : Step.instrs steps =
    Step.instrs (steps.take k) ++
      (Step.instrs ((steps.drop k).take n) ++ Step.instrs (steps.drop (k + n))) := by
  unfold Step.instrs
  rw [← List.map_append, ← List.drop_drop, List.take_append_drop, ← List.map_append,
    List.take_append_drop]

private theorem length_instrs_take {steps : List Step} (h : n ≤ steps.length) :
    (Step.instrs (steps.take n)).length = n := by
  rw [Step.instrs, List.length_map, List.length_take_of_le h]

private theorem Resolving.of_splice (hs : Resolving ops slots s) (hsteps : s.steps = ctx.steps)
    (hbr : Branch.ofInstrs (Step.instrs ctx.steps) = .ok ctx.branches) {k : Nat} {st : Step}
    (hst : ctx.steps[k]? = some st) (hreplaceable : Replaceable st.instr) {new : List Step}
    (hreplaces : Replaces ctx slots k st.instr (new, n)) (h : (splice k n new).run s = .ok () s') :
    Resolving ops slots s' := by
  obtain ⟨hlt, -⟩ := List.getElem?_eq_some_iff.mp hst
  have hfree : EndsFree ctx.steps := endsFree_of_genuine (hsteps ▸ hs.genuine)
  have hdepth := ctx.nestLevel_eq_zero_iff_depth hbr hfree hst hreplaceable.2
  have hsplit := (congrArg Step.instrs hsteps).trans (instrs_split ctx.steps k n)
  have hexpansion := hs.expansion
  rw [hsplit] at hexpansion
  have hslots : s'.slots ⊆ slots := by
    cases h
    exact hs.subset
  -- what is replaced, and what it is replaced by
  obtain ⟨hn, hnew⟩ : n ≤ (ctx.steps.drop k).length ∧ ∀ st ∈ new, st.Genuine := by
    cases hreplaces with
    | code hnew =>
      rw [List.length_drop]
      exact ⟨by omega, hnew⟩
    | elides _ _ hn => exact ⟨hn, nofun⟩
  rw [← length_instrs_take hlt.le, ← length_instrs_take hn] at h
  obtain ⟨hsound, hsteps'⟩ := hs.toSound.of_splice hsplit hnew h
  refine ⟨hsound, hslots, ?_⟩
  rw [hsteps']
  cases hreplaces with
  | code _ hexpands =>
    have hnested : (ctx.nestLevel k ≠ 0) =
        (0 < (Step.instrs (ctx.steps.take k)).foldl depthAfter 0) := by
      rw [Ne, hdepth, Nat.pos_iff_ne_zero]
    rw [hnested] at hexpands
    rw [Step.take_one_drop hst] at hexpansion
    exact hexpansion.replace hreplaceable hexpands
  | elides hlevel _ _ hreads =>
    apply hexpansion.elide
    · intro i hi
      obtain ⟨st', hst', rfl⟩ := List.mem_map.mp hi
      exact hreads st' hst'
    · exact hdepth.mp hlevel

/-- An optimizer that is not enabled changes nothing. -/
theorem steps_optimized (hopt : ∀ p, opt = some p → p.enabled = false) (s : Session) :
    (s.optimized opt).steps = s.steps := by
  cases opt with
  | none => rfl
  | some p =>
    change p.run s.steps = s.steps
    rw [Peephole.Optimizer.run, if_neg (by rw [hopt p rfl]; decide)]

/-- A pass leaves a program that stands for the one at the start; if it replaces nothing, no read is
left. -/
theorem Resolving.of_pass (hinner : Inward inner) (hopt : ∀ p, opt = some p → p.enabled = false)
    (hcalls : ∀ i ∈ ops, i.isCall = false) (hs : Resolving ops slots s)
    (h : (pass inner o opt).run s = .ok b s') :
    Resolving ops slots s' ∧ (b = false → Finished o s') := by
  obtain ⟨ctx, s₁, r, s₂, hctx, hfirst, hcases⟩ := of_run_pass h
  have hoptimized := steps_optimized hopt s
  have hsound : (s.optimized opt).Sound := ⟨hoptimized ▸ hs.genuine, hs.free⟩
  obtain ⟨hsound₁, hsteps₁⟩ := hsound.of_currentContext hctx
  obtain ⟨hof, hctxSteps, -, hslots₁⟩ := of_run_currentContext hctx
  rw [hoptimized] at hsteps₁
  have hexpansion := hs.expansion
  rw [← hsteps₁] at hexpansion
  have hcalls₁ : ∀ st ∈ ctx.steps, st.instr.isCall = false := by
    intro st hst
    rw [← hctxSteps] at hst
    exact hexpansion.isCall_eq_false hcalls _ (List.mem_map_of_mem hst)
  obtain ⟨hkeeps, hsome, hnone⟩ :=
    of_run_firstReplacement hinner ctx.steps hcalls₁ hsound₁.free hfirst
  have hresolving : Resolving ops slots s₂ := by
    refine ⟨⟨?_, ?_⟩, List.Subset.trans hkeeps.slots (hslots₁ ▸ hs.subset), ?_⟩
    · rw [hkeeps.steps]
      exact hsound₁.genuine
    · rw [hkeeps.table]
      exact hsound₁.free
    · rw [hkeeps.steps]
      exact hexpansion
  have hsteps₂ : s₂.steps = ctx.steps := hkeeps.steps.trans hctxSteps
  rcases hcases with ⟨rfl, rfl, rfl⟩ | ⟨i, new, n, rfl, rfl, hsplice⟩
  · refine ⟨hresolving, fun _ => ⟨?_, _, _, _, hof, ?_⟩⟩
    · rw [hsteps₂]
      exact hnone rfl
    · rw [hkeeps.steps, hsteps₁, hoptimized]
  · obtain ⟨k, st, rfl, hst, hreplaces, hreplaceable⟩ := hsome i (new, n) rfl
    rw [Nat.zero_add] at hreplaces hsplice
    refine ⟨hresolving.of_splice hsteps₂ (Context.branches_of hof) hst hreplaceable ?_ hsplice,
      nofun⟩
    exact hreplaces.mono (hslots₁ ▸ hs.subset)

/-! ### All passes -/

section

variable {I F : Session → Prop} {E : Failure → Session → Prop} {pass : SessionM Bool}

/-- What every pass keeps, up to the one that finds nothing to replace or fails, or up to where a
bound is reached. -/
theorem leads_resolve
    (hpass : ∀ s, I s → Leads pass s (fun b s' => if b then I s' else F s') E)
    (hend : ∀ s, I s → E (.fault .endless) s) (e n : Nat) (hs : I s) :
    Leads (resolve pass e n) s (fun _ => F) E := by
  have hsettle {next : SessionM Unit} (hnext : ∀ s, I s → Leads next s (fun _ => F) E) {k : Nat}
      {s : Session} (hs : I s) : Leads (settle next pass k) s (fun _ => F) E := by
    induction k generalizing s with
    | zero => exact hend s hs
    | succ k ih =>
      refine Leads.get_bind ((hpass s hs).bind fun b s₁ hs₁ => ?_)
      cases b with
      | false => exact hs₁
      | true =>
        refine Leads.get_bind ?_
        split
        · exact hnext s₁ hs₁
        · exact ih hs₁
  induction n generalizing s with
  | zero => exact hend s hs
  | succ n ih => exact Leads.get_bind (hsettle (fun _ => ih) hs)

/-- What every pass keeps, up to the one that finds nothing to replace. -/
theorem of_run_resolve (hpass : ∀ s s' b, I s → pass.run s = .ok b s' → if b then I s' else F s')
    (hs : I s) (h : (resolve pass e n).run s = .ok () s') : F s' :=
  (leads_iff.mp (leads_resolve (E := fun _ _ => True) (fun s hs => leads_iff.mpr
    ⟨fun b s' => hpass s s' b hs, fun _ _ _ => trivial⟩) (fun _ _ => trivial) e n hs)).1 _ _ h

end

/-- The parts of a resolution: calls are expanded, slots are filled, and passes follow over a
program without calls, which is the analysed one behind the code that fills the slots. -/
theorem parts_of_run_resolveDeep (hs : s.Sound) (h : (resolveDeep o opt e n).run s = .ok () s') :
    ∃ inner s₀ s₁ s₂ ctx r setup k, Inward inner ∧ (expandCalls o e).run s = .ok () s₀ ∧
      (route o).run s₀ = .ok () s₁ ∧ (analyse o e).run s = .ok (ctx, r) s₂ ∧ IsCode setup ∧
      Resolving (Step.instrs setup ++ Step.instrs ctx.steps) r.names s₁ ∧
      (∀ i ∈ Step.instrs setup ++ Step.instrs ctx.steps, i.isCall = false) ∧
      (resolve (pass inner o opt) e k).run s₁ = .ok () s' := by
  obtain ⟨inner, hinner, hrun⟩ : ∃ inner, Inward inner ∧
      (resolveWith inner o opt e).run s = .ok () s' := by
    cases n with
    | zero => exact ⟨_, inward_throw _, h⟩
    | succ n => exact ⟨_, inward_innerWith _, h⟩
  obtain ⟨_, s₀, hcalls, h₁⟩ := exists_of_run_bind hrun
  obtain ⟨_, s₁, hroute, h₂⟩ := exists_of_run_bind h₁
  obtain ⟨_, s₂, hget, h₃⟩ := exists_of_run_bind h₂
  cases hget
  obtain ⟨ctx, r, s₂, setup, hanalyse, hsound, hcode, hslots, hsteps⟩ := hs.of_route hcalls hroute
  refine ⟨inner, s₀, s₁, s₂, ctx, r, setup, _, hinner, hcalls, hroute, hanalyse, hcode,
    ⟨hsound, hslots, hsteps ▸ .refl _ _ _⟩, ?_, h₃⟩
  exact List.forall_mem_append.mpr
    ⟨fun i hi => (hcode.straight i hi).isCall_eq_false, (hs.of_analyse hanalyse).calls⟩

/-- A program that was resolved stands for the analysed one, behind the code that fills its slots.
-/
theorem of_run_resolveDeep (hopt : ∀ p, opt = some p → p.enabled = false) (hs : s.Sound)
    (h : (resolveDeep o opt e n).run s = .ok () s') :
    ∃ ctx r s₁ setup, (analyse o e).run s = .ok (ctx, r) s₁ ∧ IsCode setup ∧
      Resolving (Step.instrs setup ++ Step.instrs ctx.steps) r.names s' ∧ Finished o s' := by
  obtain ⟨inner, s₀, s₁, s₂, ctx, r, setup, k, hinner, -, -, hanalyse, hcode, hstart,
      hnone, hrun⟩ :=
    parts_of_run_resolveDeep hs h
  refine ⟨ctx, r, s₂, setup, hanalyse, hcode, ?_⟩
  refine of_run_resolve (I := Resolving _ _) (F := fun s => Resolving _ _ s ∧ Finished o s)
    (fun s s' b hs h => ?_) hstart hrun
  obtain ⟨hresolving, hfinished⟩ := hs.of_pass hinner hopt hnone h
  cases b with
  | true => exact hresolving
  | false => exact ⟨hresolving, hfinished rfl⟩

end NamedStack.Session
