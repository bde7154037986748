import NamedStack.Proofs.Peephole.Weight
import NamedStack.Proofs.Resolve.Accepted

/-!
# The history of a session

Each pass that replaces something edits the program at one position: new steps come in place of an
inner script or of references, and all others stay as they are, in order. So a step that is none of
these has a place after each pass, which this module follows.
-/

namespace NamedStack.Session

variable {inner : InnerResult} {o : Options} {opt : Option Peephole.Optimizer} {e : Nat}
variable {s s' s'' : Session} {ctx : Context} {k : Nat} {r : Replacement}

/-! ### One pass -/

/-- Whether a session has a context at the start of a pass. -/
def Sees (o : Options) (opt : Option Peephole.Optimizer) (s : Session) (ctx : Context) : Prop :=
  ∃ s₁, (currentContext o).run (s.optimized opt) = .ok ctx s₁

/-- Whether a pass finds a context and replaces something at a position of it. -/
def Edits (inner : InnerResult) (o : Options) (opt : Option Peephole.Optimizer) (s : Session)
    (ctx : Context) (k : Nat) (r : Replacement) (s' : Session) : Prop :=
  ∃ s₁ s₂, (currentContext o).run (s.optimized opt) = .ok ctx s₁ ∧
    (firstReplacement inner ctx 0 ctx.steps).run s₁ = .ok (some (k, r)) s₂ ∧
    (splice k r.2 r.1).run s₂ = .ok () s'

/-- A pass that replaces has a context. -/
theorem Edits.sees (h : Edits inner o opt s ctx k r s') : Sees o opt s ctx := by
  obtain ⟨s₁, s₂, hctx, -⟩ := h
  exact ⟨s₁, hctx⟩

private theorem exists_edits_of_run_pass (h : (pass inner o opt).run s = .ok true s') :
    ∃ ctx k r, Edits inner o opt s ctx k r s' := by
  obtain ⟨ctx, s₁, found, s₂, hctx, hfirst, hcases⟩ := of_run_pass h
  rcases hcases with ⟨-, hfalse, -⟩ | ⟨k, new, n, rfl, -, hsplice⟩
  · cases hfalse
  · exact ⟨ctx, k, (new, n), s₁, s₂, hctx, hfirst, hsplice⟩

/-- The steps of a context are those of the program, refined. -/
theorem Sees.steps_eq (hopt : ∀ p, opt = some p → p.enabled = false) (h : Sees o opt s ctx) :
    ctx.steps = s.steps.zipIdx.map fun p => Context.refine s.steps p.2 p.1 := by
  obtain ⟨s₁, hctx⟩ := h
  obtain ⟨hof, -⟩ := of_run_currentContext hctx
  obtain ⟨branches, -, rfl⟩ := Context.of_cases hof
  rw [steps_optimized hopt]

/-- Without the optimizer a context has the instructions of its session. -/
theorem Sees.instrs_eq (hopt : ∀ p, opt = some p → p.enabled = false) (h : Sees o opt s ctx) :
    Step.instrs ctx.steps = Step.instrs s.steps := by
  rw [h.steps_eq hopt, Context.instrs_refined]

/-! ### Sessions without calls -/

/-- Whether no call is left in a session, and no name stands for a parameter. -/
structure Expanded (s : Session) : Prop where
  free : s.table.ParameterFree
  calls : ∀ i ∈ Step.instrs s.steps, i.isCall = false

private theorem Expanded.optimized (hs : s.Expanded) (opt : Option Peephole.Optimizer) :
    (s.optimized opt).Expanded := by
  refine ⟨hs.free, fun i hi => ?_⟩
  cases opt with
  | none => exact hs.calls i hi
  | some opt =>
    cases i with
    | call name args =>
      -- an optimizer keeps what is open, and so adds no call
      have hmem : .call name args ∈ Peephole.openings (Step.instrs (opt.run s.steps)) :=
        List.mem_filter.mpr ⟨hi, rfl⟩
      rw [(opt.run_reduces s.steps).openings_eq] at hmem
      exact hs.calls _ (List.mem_filter.mp hmem).1
    | _ => rfl

/-- The context of an expanded session has no calls. -/
theorem Expanded.isCall_eq_false (hs : s.Expanded) (h : Sees o opt s ctx) :
    ∀ st ∈ ctx.steps, st.instr.isCall = false := by
  obtain ⟨s₁, hctx⟩ := h
  have hinstrs := instrs_of_run_currentContext hctx
  obtain ⟨-, hsteps, -⟩ := of_run_currentContext hctx
  intro st hst
  apply (hs.optimized opt).calls
  rw [← hinstrs, hsteps]
  exact List.mem_map_of_mem hst

/-- What a pass does to a session. -/
theorem Edits.spec (h : Edits inner o opt s ctx k r s') (hinner : Inward inner) (hs : s.Expanded) :
    (∃ st, ctx.steps[k]? = some st ∧ Replaces ctx s.slots k st.instr r ∧ Replaceable st.instr) ∧
      s'.steps = ctx.steps.take k ++ r.1 ++ ctx.steps.drop (k + r.2) ∧
      s'.table = recordAssigned (bindAssigned s.table (s.optimized opt).steps) ctx.assignments ∧
      s'.slots ⊆ s.slots := by
  have hcalls := hs.isCall_eq_false h.sees
  obtain ⟨s₁, s₂, hctx, hfirst, hsplice⟩ := h
  obtain ⟨-, hsteps, htable, hslots⟩ := of_run_currentContext hctx
  have hfree : s₁.table.ParameterFree := by
    rw [htable]
    exact (hs.free.bindAssigned _).recordAssigned _
  obtain ⟨hkeeps, hsome, -⟩ := of_run_firstReplacement hinner ctx.steps hcalls hfree hfirst
  obtain ⟨k', st, hk, hst, hreplaces, hreplaceable⟩ := hsome k r rfl
  rw [Nat.zero_add] at hk
  subst hk
  cases hsplice
  refine ⟨⟨st, hst, hslots ▸ hreplaces, hreplaceable⟩, ?_, hkeeps.table.trans htable,
    List.Subset.trans hkeeps.slots (hslots ▸ List.Subset.refl _)⟩
  change s₂.steps.take k ++ r.1 ++ s₂.steps.drop (k + r.2) = _
  rw [hkeeps.steps, hsteps]

variable {slots : List Name} {passes : Nat}

/-- No replacement has a call in it. -/
theorem Replaces.isCall_eq_false {instr : Instr} (h : Replaces ctx slots k instr r)
    (hinstr : instr.isCall = false) : ∀ i ∈ Step.instrs r.1, i.isCall = false := by
  cases h with
  | code hnew hexpands =>
    intro i hi
    rcases hexpands.cases_eq with hsame | ⟨-, ⟨ops, hone⟩ | hcode⟩
    · rw [hsame, List.mem_singleton] at hi
      rw [hi]
      exact hinstr
    · rw [hone, List.mem_singleton] at hi
      rw [hi]
      rfl
    · exact (hcode i hi).isCall_eq_false
  | elides => exact List.forall_mem_nil _

/-- A pass keeps a session expanded. -/
theorem Expanded.of_edits (hs : s.Expanded) (hinner : Inward inner)
    (h : Edits inner o opt s ctx k r s') : s'.Expanded := by
  have hcalls := hs.isCall_eq_false h.sees
  obtain ⟨⟨st, hst, hreplaces, -⟩, hsteps, htable, -⟩ := h.spec hinner hs
  refine ⟨htable ▸ (hs.free.bindAssigned _).recordAssigned _, ?_⟩
  rw [hsteps, Step.instrs_append, Step.instrs_append]
  refine List.forall_mem_append.mpr ⟨List.forall_mem_append.mpr ⟨?_, ?_⟩, ?_⟩
  · intro i hi
    obtain ⟨st, hst, rfl⟩ := List.mem_map.mp hi
    exact hcalls st (List.mem_of_mem_take hst)
  · exact hreplaces.isCall_eq_false (hcalls st (List.mem_of_getElem? hst))
  · intro i hi
    obtain ⟨st, hst, rfl⟩ := List.mem_map.mp hi
    exact hcalls st (List.mem_of_mem_drop hst)

/-- Calls are expanded before the first pass. -/
theorem Sound.expanded_of_route (hs : s.Sound) (hcalls : (expandCalls o e).run s = .ok () s')
    (hroute : (route o).run s' = .ok () s'') : s''.Expanded := by
  obtain ⟨ctx, r, s₁, setup, hanalyse, hsound, hcode, -, hsteps⟩ := hs.of_route hcalls hroute
  refine ⟨hsound.free, ?_⟩
  rw [hsteps]
  exact List.forall_mem_append.mpr
    ⟨fun i hi => (hcode.straight i hi).isCall_eq_false, (hs.of_analyse hanalyse).calls⟩

variable {i j n : Nat}

/-- A pass passes no read by, and then visits the step that it replaces. -/
theorem Edits.exists_visit (h : Edits inner o opt s ctx k r s') (hinner : Inward inner) :
    ∃ st s₁ s₂, ctx.steps[k]? = some st ∧
      (visit inner ctx k st).run s₁ = .ok (some r) s₂ ∧
      s₁.table = recordAssigned (bindAssigned s.table (s.optimized opt).steps) ctx.assignments ∧
      s₁.slots ⊆ s.slots ∧
      ∀ st ∈ ctx.steps.take k, ∀ name, st.instr ≠ .assume name ∧ st.instr ≠ .var name := by
  obtain ⟨s₀, s₃, hctx, hfirst, -⟩ := h
  obtain ⟨-, -, htable, hslots⟩ := of_run_currentContext hctx
  obtain ⟨k', st, s₁, hk, hst, hnone, hvisit⟩ := exists_visit_of_run_firstReplacement hfirst
  rw [Nat.zero_add] at hk
  subst hk
  obtain ⟨hkeeps, hreads⟩ := unread_of_run_firstReplacement hinner hnone
  exact ⟨st, s₁, s₃, hst, hvisit, hkeeps.table.trans htable, hslots ▸ hkeeps.slots, hreads⟩

/-! ### What is replaced -/

/-- Either one inner script comes in place of another, or references are replaced. -/
theorem Replaces.region {st : Step} (h : Replaces ctx slots k st.instr r)
    (hst : ctx.steps[k]? = some st) (hreplaceable : Replaceable st.instr)
    (hcall : st.instr.isCall = false) :
    (∃ ops ops', st.instr = .inner ops ∧ Step.instrs r.1 = [.inner ops'] ∧ r.2 = 1) ∨
      0 < r.2 ∧ k + r.2 ≤ ctx.steps.length ∧
        ∀ q, k ≤ q → q < k + r.2 → ∃ st, ctx.steps[q]? = some st ∧ st.instr.isReference = true := by
  obtain ⟨hlt, -⟩ := List.getElem?_eq_some_iff.mp hst
  cases h with
  | code hnew hexpands =>
    have hone (href : st.instr.isReference = true) : 0 < 1 ∧ k + 1 ≤ ctx.steps.length ∧
        ∀ q, k ≤ q → q < k + 1 → ∃ st, ctx.steps[q]? = some st ∧ st.instr.isReference = true := by
      refine ⟨Nat.one_pos, hlt, fun q hle hq => ?_⟩
      obtain rfl : q = k := by omega
      exact ⟨st, hst, href⟩
    cases hi : st.instr with
    | op op => exact absurd hi (hreplaceable.2 op)
    | push data =>
      rw [hi] at hreplaceable
      exact absurd trivial hreplaceable.1
    | assume name | assign name | var name => exact .inr (hone (by rw [hi]; rfl))
    | call name args =>
      rw [hi] at hcall
      cases hcall
    | inner ops =>
      rw [hi] at hexpands
      generalize Step.instrs _ = code at hexpands ⊢
      cases hexpands with
      | same => exact .inl ⟨ops, ops, rfl, rfl, rfl⟩
      | inner _ ops' => exact .inl ⟨ops, ops', rfl, rfl, rfl⟩
      | read hread => rcases hread with hread | hread <;> cases hread
  | @elides n hlevel hpos hn hreads =>
    rw [List.length_drop] at hn
    refine .inr ⟨hpos, by dsimp only; omega, fun q hle hq => ?_⟩
    dsimp only at hq
    have hat : ctx.steps[q]? = ((ctx.steps.drop k).take n)[q - k]? := by
      rw [List.getElem?_take_of_lt (by omega), List.getElem?_drop, Nat.add_sub_cancel' hle]
    have hlen : q - k < ((ctx.steps.drop k).take n).length := by
      rw [List.length_take, List.length_drop]
      omega
    obtain ⟨name, hname⟩ := hreads _ (List.getElem_mem hlen)
    refine ⟨_, hat.trans (List.getElem?_eq_getElem hlen), ?_⟩
    rw [hname]
    rfl

/-! ### Places -/

/-- Where a step stands after a replacement, if it stood at a position and was not replaced. -/
inductive Shifts (k : Nat) (r : Replacement) : Nat → Nat → Prop
  | before {i : Nat} (h : i < k) : Shifts k r i i
  | behind {i : Nat} (h : k + r.2 ≤ i) : Shifts k r i (i - r.2 + r.1.length)

/-- The step itself stays the same. -/
theorem Shifts.getElem? {steps : List Step} (h : Shifts k r i j) (hk : k ≤ steps.length) :
    (steps.take k ++ r.1 ++ steps.drop (k + r.2))[j]? = steps[i]? := by
  have hlen : (steps.take k ++ r.1).length = k + r.1.length := by
    rw [List.length_append, List.length_take_of_le hk]
  cases h with
  | before h =>
    rw [List.append_assoc, List.getElem?_append_left (by rw [List.length_take]; omega),
      List.getElem?_take_of_lt h]
  | behind h =>
    rw [List.getElem?_append_right (by omega), List.getElem?_drop, hlen]
    congr 1
    omega

/-- A step stands in one place. -/
theorem Shifts.unique {j' : Nat} (h : Shifts k r i j) (h' : Shifts k r i j') : j' = j := by
  cases h with
  | before h =>
    cases h' with
    | before => rfl
    | behind => omega
  | behind h =>
    cases h' with
    | before => omega
    | behind => rfl

/-- Whether passes lead from one session to another. -/
def Reaches (inner : InnerResult) (o : Options) (opt : Option Peephole.Optimizer) :
    Session → Session → Prop :=
  Relation.ReflTransGen fun s s' => ∃ ctx k r, Edits inner o opt s ctx k r s'

/-- Whether passes lead from one session to another and leave the step at a position of the first
one at a position of the second one. -/
inductive Carries (inner : InnerResult) (o : Options) (opt : Option Peephole.Optimizer)
    (s : Session) (i : Nat) : Session → Nat → Prop
  | start : Carries inner o opt s i s i
  | pass {s' s'' : Session} {ctx : Context} {k j j' : Nat} {r : Replacement}
      (h : Carries inner o opt s i s' j) (hedits : Edits inner o opt s' ctx k r s'')
      (hshifts : Shifts k r j j') : Carries inner o opt s i s'' j'

/-- Passes that carry a step lead to a session. -/
theorem Carries.reaches (h : Carries inner o opt s i s' j) : Reaches inner o opt s s' := by
  induction h with
  | start => exact .refl
  | pass _ hedits _ ih => exact ih.tail ⟨_, _, _, hedits⟩

/-- Passes keep a session expanded. -/
theorem Expanded.of_reaches (hs : s.Expanded) (hinner : Inward inner)
    (h : Reaches inner o opt s s') : s'.Expanded := by
  induction h with
  | refl => exact hs
  | tail _ hpass ih =>
    obtain ⟨ctx, k, r, hedits⟩ := hpass
    exact ih.of_edits hinner hedits

/-! ### All passes -/

/-- A pass does one thing only. -/
theorem Edits.unique {ctx' : Context} {k' : Nat} {r' : Replacement} {t t' : Session}
    (h : Edits inner o opt s ctx k r t) (h' : Edits inner o opt s ctx' k' r' t') : t' = t := by
  obtain ⟨s₁, s₂, hctx, hfirst, hsplice⟩ := h
  obtain ⟨s₁', s₂', hctx', hfirst', hsplice'⟩ := h'
  rw [hctx] at hctx'
  cases hctx'
  rw [hfirst] at hfirst'
  cases hfirst'
  rw [hsplice] at hsplice'
  cases hsplice'
  rfl

/-- A pass that finds nothing replaces nothing. -/
theorem not_edits_of_run_pass (h : (Session.pass inner o opt).run s = .ok false s') :
    ¬ Edits inner o opt s ctx k r s'' := by
  rintro ⟨s₁, s₂, hctx, hfirst, -⟩
  obtain ⟨ctx', s₁', hctx', hfirst'⟩ := of_run_pass_false h
  cases hctx.symm.trans hctx'
  cases hfirst.symm.trans hfirst'

/-- Passes go on from every session that they reach to the one over which the last pass finds
nothing to replace. -/
theorem Reaches.of_last {last : Session} (h : Reaches inner o opt s s')
    (hreaches : Reaches inner o opt s last)
    (hlast : (Session.pass inner o opt).run last = .ok false s'') :
    Reaches inner o opt s' last := by
  have hunique : Relator.RightUnique fun s s' => ∃ ctx k r, Edits inner o opt s ctx k r s' := by
    rintro s t t' ⟨_, _, _, hedits⟩ ⟨_, _, _, hedits'⟩
    exact hedits'.unique hedits
  rcases h.total_of_right_unique hunique hreaches with h | h
  · exact h
  · rcases h.cases_head with rfl | ⟨_, ⟨_, _, _, hedits⟩, -⟩
    · exact .refl
    · exact absurd hedits (not_edits_of_run_pass hlast)

/-- Passes that end have led to a session over which a last pass finds nothing to replace. -/
theorem exists_reaches_of_run_resolve
    (h : (resolve (Session.pass inner o opt) e n).run s = .ok () s') :
    ∃ last, Reaches inner o opt s last ∧ (Session.pass inner o opt).run last = .ok false s' := by
  refine of_run_resolve (I := Reaches inner o opt s)
    (F := fun s' => ∃ last, Reaches inner o opt s last ∧
      (Session.pass inner o opt).run last = .ok false s') ?_ .refl h
  intro s₁ s₂ b hs hpass
  cases b with
  | true => exact hs.tail (exists_edits_of_run_pass hpass)
  | false => exact ⟨s₁, hs, hpass⟩

/-- How inner scripts that are nested so deep are resolved. -/
def innerOf (o : Options) (opt : Option Peephole.Optimizer) : Nat → InnerResult
  | 0 => fun _ => throw (.fault .endless)
  | n + 1 => innerWith (resolveDeep o opt 0 n)

/-- Resolving inner scripts touches nothing else. -/
theorem inward_innerOf (o : Options) (opt : Option Peephole.Optimizer) (n : Nat) :
    Inward (innerOf o opt n) := by
  cases n with
  | zero => exact inward_throw _
  | succ n => exact inward_innerWith _

/-- Resolving is to expand calls, to fill slots and then to run passes until one of them finds
nothing to replace. -/
theorem exists_reaches_of_run_resolveDeep (h : (resolveDeep o opt 0 n).run s = .ok () s') :
    ∃ s₁ s₀ last, (expandCalls o 0).run s = .ok () s₁ ∧ (route o).run s₁ = .ok () s₀ ∧
      Reaches (innerOf o opt n) o opt s₀ last ∧
      (Session.pass (innerOf o opt n) o opt).run last = .ok false s' := by
  have hwith : (resolveWith (innerOf o opt n) o opt 0).run s = .ok () s' := by
    cases n <;> exact h
  obtain ⟨_, s₁, hcalls, h₁⟩ := exists_of_run_bind hwith
  obtain ⟨_, s₀, hroute, h₂⟩ := exists_of_run_bind h₁
  obtain ⟨_, s₂, hget, h₃⟩ := exists_of_run_bind h₂
  cases hget
  obtain ⟨last, hreaches, hlast⟩ := exists_reaches_of_run_resolve h₃
  exact ⟨s₁, s₀, last, hcalls, hroute, hreaches, hlast⟩

/-- Resolving without a failure, by its session. -/
theorem resolve_eq_of_failure {t : Table} {ops : List Instr}
    (h : (NamedStack.resolve t o opt ops).failure = none) :
    NamedStack.resolve t o opt ops =
      { session := (NamedStack.resolve t o opt ops).session, failure := none } := by
  rw [← h]

/-- Whether passes, while a session whose inner scripts are nested so deep is resolved, lead to
another session, from which the next one finds a context and replaces something at a position of it.
-/
def ReplacedFrom (s : Session) (o : Options) (opt : Option Peephole.Optimizer) (n : Nat)
    (s₁ : Session) (ctx : Context) (k : Nat) (r : Replacement) : Prop :=
  ∃ s' s₀ s₂, (expandCalls o 0).run s = .ok () s' ∧ (route o).run s' = .ok () s₀ ∧
    Reaches (innerOf o opt n) o opt s₀ s₁ ∧ Edits (innerOf o opt n) o opt s₁ ctx k r s₂

/-- Whether a pass does so while a program is resolved. -/
def Replaced (p : Program) (o : Options) (opt : Option Peephole.Optimizer) (ctx : Context) (k : Nat)
    (r : Replacement) : Prop :=
  ∃ s₁, ReplacedFrom { steps := Step.ofList p.ops, table := .ofProgram p } o opt
    (Measure.scriptDepth (.ofProgram p) p.ops) s₁ ctx k r

/-! ### Computed histories -/

/-- What has a result is that result. -/
theorem eq_ok_of_toOption {ε α : Type} {x : Except ε α} {a : α} (h : x.toOption = some a) :
    x = .ok a := by
  cases x with
  | error e => cases h
  | ok b =>
    cases h
    rfl

/-- The context at the start of a pass, if there is one. -/
def context? (o : Options) (opt : Option Peephole.Optimizer) (s : Session) : Option Context :=
  match (currentContext o).run (s.optimized opt) with
  | .ok ctx _ => some ctx
  | .error _ _ => none

/-- The context that is computed is seen. -/
theorem sees_of_context? (h : context? o opt s = some ctx) : Sees o opt s ctx := by
  unfold context? at h
  split at h
  · next hctx =>
    cases h
    exact ⟨_, hctx⟩
  · cases h

/-- What a pass replaces, and the session that it leaves. -/
def edit? (inner : InnerResult) (o : Options) (opt : Option Peephole.Optimizer) (s : Session) :
    Option (Context × Nat × Replacement × Session) :=
  match (currentContext o).run (s.optimized opt) with
  | .error _ _ => none
  | .ok ctx s₁ =>
    match (firstReplacement inner ctx 0 ctx.steps).run s₁ with
    | .ok (some (k, r)) s₂ =>
      match (splice k r.2 r.1).run s₂ with
      | .ok _ s' => some (ctx, k, r, s')
      | .error _ _ => none
    | _ => none

private theorem edits_of_edit? (h : edit? inner o opt s = some (ctx, k, r, s')) :
    Edits inner o opt s ctx k r s' := by
  unfold edit? at h
  split at h
  · cases h
  · next s₁ hctx =>
    split at h
    · next s₂ hfirst =>
      split at h
      · next hsplice =>
        cases h
        exact ⟨s₁, s₂, hctx, hfirst, hsplice⟩
      · cases h
    · cases h

/-- The session after so many passes, and the place there of a step that is at a position now. -/
def carry? (inner : InnerResult) (o : Options) (opt : Option Peephole.Optimizer) :
    Nat → Session → Nat → Option (Session × Nat)
  | 0, s, i => some (s, i)
  | n + 1, s, i =>
    match edit? inner o opt s with
    | some (_, k, r, s') =>
      if i < k then carry? inner o opt n s' i
      else if k + r.2 ≤ i then carry? inner o opt n s' (i - r.2 + r.1.length)
      else none
    | none => none

/-- The step is carried where it is computed to be. -/
theorem Carries.of_carry? {s₀ : Session} {i₀ : Nat} (hs : Carries inner o opt s₀ i₀ s i)
    (h : carry? inner o opt n s i = some (s', j)) : Carries inner o opt s₀ i₀ s' j := by
  induction n generalizing s i with
  | zero =>
    cases h
    exact hs
  | succ n ih =>
    rw [carry?] at h
    split at h
    · next hedit =>
      have hedits := edits_of_edit? hedit
      split at h
      · next hlt => exact ih (hs.pass hedits (.before hlt)) h
      · split at h
        · next hle => exact ih (hs.pass hedits (.behind hle)) h
        · cases h
    · cases h

/-- The session after so many passes. -/
def passes? (inner : InnerResult) (o : Options) (opt : Option Peephole.Optimizer) :
    Nat → Session → Option Session
  | 0, s => some s
  | n + 1, s =>
    match edit? inner o opt s with
    | some (_, _, _, s') => passes? inner o opt n s'
    | none => none

private theorem reaches_of_passes? (h : passes? inner o opt n s = some s') :
    Reaches inner o opt s s' := by
  induction n generalizing s with
  | zero =>
    cases h
    exact .refl
  | succ n ih =>
    rw [passes?] at h
    split at h
    · next hedit => exact .head ⟨_, _, _, edits_of_edit? hedit⟩ (ih h)
    · cases h

/-- The session after so many passes while a session is resolved, and what the next one replaces. -/
def replacedFrom? (s : Session) (o : Options) (opt : Option Peephole.Optimizer) (n passes : Nat) :
    Option (Session × Context × Nat × Replacement) :=
  match (expandCalls o 0).run s with
  | .error _ _ => none
  | .ok _ s' =>
    match (route o).run s' with
    | .error _ _ => none
    | .ok _ s₀ => do
      let s₁ ← passes? (innerOf o opt n) o opt passes s₀
      let (ctx, k, r, _) ← edit? (innerOf o opt n) o opt s₁
      return (s₁, ctx, k, r)

/-- What is computed is replaced there. -/
theorem replacedFrom_of_replacedFrom? {s₁ : Session}
    (h : replacedFrom? s o opt n passes = some (s₁, ctx, k, r)) :
    ReplacedFrom s o opt n s₁ ctx k r := by
  unfold replacedFrom? at h
  split at h
  · cases h
  · next hcalls =>
    split at h
    · cases h
    · next hroute =>
      obtain ⟨s₁', hpasses, h⟩ := Option.bind_eq_some_iff.mp h
      obtain ⟨⟨_, _, _, s₂⟩, hedit, h⟩ := Option.bind_eq_some_iff.mp h
      cases h
      exact ⟨_, _, s₂, hcalls, hroute, reaches_of_passes? hpasses, edits_of_edit? hedit⟩

/-- What is replaced after so many passes while a program is resolved. -/
def replaced? (p : Program) (o : Options) (opt : Option Peephole.Optimizer) (passes : Nat) :
    Option (Context × Nat × Replacement) :=
  (replacedFrom? { steps := Step.ofList p.ops, table := .ofProgram p } o opt
    (Measure.scriptDepth (.ofProgram p) p.ops) passes).map (·.2)

/-- What is computed is replaced. -/
theorem replaced_of_replaced? {p : Program} (h : replaced? p o opt passes = some (ctx, k, r)) :
    Replaced p o opt ctx k r := by
  obtain ⟨⟨s₁, _⟩, hreplaced, rfl⟩ := Option.map_eq_some_iff.mp h
  exact ⟨s₁, replacedFrom_of_replacedFrom? hreplaced⟩

end NamedStack.Session
