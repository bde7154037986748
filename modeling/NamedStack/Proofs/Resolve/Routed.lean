import NamedStack.Proofs.Resolve.Code
import NamedStack.Proofs.Resolve.Parameters
import NamedStack.Proofs.Resolve.Session

/-!
# Programs whose calls are expanded without a failure

What has happened to a session when its calls are expanded and its values have their slots. Both
come before all passes, so that passes meet no calls, and both keep a session sound: no name stands
for a parameter and every step is as it was built.
-/

namespace NamedStack.Session

variable {s s' : Session} {o : Options} {e : Nat}

variable {α : Type} {back front mid : List Instr} {new steps : List Step}

/-- A computation that succeeds does so in both parts. -/
theorem exists_of_run_bind {β : Type} {x : SessionM α} {f : α → SessionM β} {b : β}
    (h : (x >>= f).run s = .ok b s') : ∃ a s₁, x.run s = .ok a s₁ ∧ (f a).run s₁ = .ok b s' := by
  rw [EStateM.run_bind] at h
  cases hx : x.run s with
  | ok a s₁ =>
    rw [hx] at h
    exact ⟨a, s₁, rfl, h⟩
  | error e s₁ =>
    rw [hx] at h
    cases h

/-- Only a result is not refused. -/
theorem eq_ok_of_run_orRefuse {x : Except Cause α} {a : α} (h : (orRefuse x).run s = .ok a s') :
    x = .ok a ∧ s' = s := by
  cases x with
  | error c => cases h
  | ok b =>
    cases h
    exact ⟨rfl, rfl⟩

/-! ### Contexts -/

/-- What is kept of a session while its program is resolved: its steps are genuine, and no name
stands for a parameter. -/
structure Sound (s : Session) : Prop where
  genuine : ∀ st ∈ s.steps, st.Genuine
  free : s.table.ParameterFree

variable {ctx : Context}

/-- A session takes on the steps of its context. -/
theorem of_run_currentContext (h : (currentContext o).run s = .ok ctx s') :
    Context.of (bindAssigned s.table s.steps) o s.steps = .ok ctx ∧ s'.steps = ctx.steps ∧
      s'.table = recordAssigned (bindAssigned s.table s.steps) ctx.assignments ∧
      s'.slots = s.slots := by
  cases hctx : Context.of (bindAssigned s.table s.steps) o s.steps with
  | error c =>
    obtain ⟨_, s₁, hbind, h⟩ := exists_of_run_bind h
    cases hbind
    obtain ⟨_, s₂, hget, h⟩ := exists_of_run_bind h
    cases hget
    obtain ⟨ctx', s₃, hrefuse, -⟩ := exists_of_run_bind h
    cases hctx.symm.trans (eq_ok_of_run_orRefuse hrefuse).1
  | ok ctx' =>
    rw [run_currentContext hctx] at h
    cases h
    exact ⟨rfl, rfl, rfl, rfl⟩

/-- Finding a context changes no instruction. -/
theorem instrs_of_run_currentContext (h : (currentContext o).run s = .ok ctx s') :
    Step.instrs s'.steps = Step.instrs s.steps := by
  obtain ⟨hctx, hsteps, -, -⟩ := of_run_currentContext h
  obtain ⟨branches, -, heq⟩ := Context.of_cases hctx
  rw [hsteps, heq]
  exact Context.instrs_refined s.steps

/-- Finding the context keeps a session sound. -/
theorem Sound.of_currentContext (hs : s.Sound) (h : (currentContext o).run s = .ok ctx s') :
    s'.Sound ∧ Step.instrs s'.steps = Step.instrs s.steps := by
  obtain ⟨hctx, hsteps, htable, -⟩ := of_run_currentContext h
  refine ⟨⟨?_, ?_⟩, instrs_of_run_currentContext h⟩
  · rw [hsteps]
    exact Context.genuine_steps hctx hs.genuine
  · rw [htable]
    exact (hs.free.bindAssigned _).recordAssigned _

/-! ### Replacing steps -/

/-- The instructions after steps were replaced. -/
theorem instrs_splice (h : Step.instrs steps = front ++ (mid ++ back)) :
    Step.instrs (steps.take front.length ++ new ++ steps.drop (front.length + mid.length)) =
      front ++ (Step.instrs new ++ back) := by
  unfold Step.instrs at h ⊢
  rw [List.map_append, List.map_append, List.map_take, List.map_drop, h, List.take_left,
    ← List.append_assoc front mid, ← List.length_append, List.drop_left, List.append_assoc]

/-- New steps stand in place of the ones that are replaced. -/
theorem Sound.of_splice (hs : s.Sound) (hsteps : Step.instrs s.steps = front ++ (mid ++ back))
    (hnew : ∀ st ∈ new, st.Genuine) (h : (splice front.length mid.length new).run s = .ok () s') :
    s'.Sound ∧ Step.instrs s'.steps = front ++ (Step.instrs new ++ back) := by
  cases h
  refine ⟨⟨?_, hs.free⟩, instrs_splice hsteps⟩
  intro st hst
  rcases List.mem_append.mp hst with hst | hst
  · rcases List.mem_append.mp hst with hst | hst
    · exact hs.genuine st (List.mem_of_mem_take hst)
    · exact hnew st hst
  · exact hs.genuine st (List.mem_of_mem_drop hst)

/-! ### Calls -/

/-- What is kept by the expansion of calls: by finding a context, and by putting instructions in
place of a call. -/
structure KeptByExpansion (o : Options) (P : Session → Prop) : Prop where
  context : ∀ ⦃s s' ctx⦄, P s → (currentContext o).run s = .ok ctx s' → P s'
  expand : ∀ ⦃s s' : Session⦄ ⦃front back : List Instr⦄ ⦃name args⦄ (ops : List Instr), P s →
    Step.instrs s.steps = front ++ ([.call name args] ++ back) →
      (splice front.length 1 (Step.ofList ops)).run s = .ok () s' → P s'

variable {P : Session → Prop}

/-- Whether an operation, on steps that stand behind so many instructions of the program, leaves no
calls in front of what comes after them. -/
private def Clears (P : Session → Prop) (f : Nat → List Step → SessionM Nat) : Prop :=
  ∀ (front back : List Instr) (steps : List Step) (s s' : Session) (j : Nat), P s →
    Step.instrs s.steps = front ++ (Step.instrs steps ++ back) → (∀ i ∈ front, i.isCall = false) →
      (f front.length steps).run s = .ok j s' →
        P s' ∧ ∃ front', front'.length = j ∧ (∀ i ∈ front', i.isCall = false) ∧
          Step.instrs s'.steps = front' ++ back

/-- Expanding a call keeps the session. -/
theorem run_expandCall {i : Nat} {name : Name} {args : List (List Instr)} {r : Replacement}
    (h : (expandCall i name args).run s = .ok r s') :
    s' = s ∧ ∃ ops, Expand.call s.table name args = .ok ops ∧ r = (Step.ofList ops, 1) := by
  obtain ⟨_, s₁, hget, h⟩ := exists_of_run_bind h
  cases hget
  cases hcall : Expand.call s.table name args with
  | error f =>
    rw [hcall] at h
    cases h
  | ok ops =>
    rw [hcall] at h
    cases h
    exact ⟨rfl, ops, rfl, rfl⟩

private theorem clears_expandWith (hP : KeptByExpansion o P)
    {deeper : Nat → List Step → SessionM Nat} (hdeeper : Clears P deeper) :
    Clears P (expandWith deeper o) := by
  intro front back steps
  induction steps generalizing front with
  | nil =>
    intro s s' j hs hsteps hfront h
    cases h
    exact ⟨hs, front, rfl, hfront, hsteps⟩
  | cons st rest ih =>
    intro s s' j hs hsteps hfront h
    have hnext (hcall : st.instr.isCall = false)
        (h : (expandWith deeper o (front.length + 1) rest).run s = .ok j s') :
        P s' ∧ ∃ front', front'.length = j ∧ (∀ i ∈ front', i.isCall = false) ∧
          Step.instrs s'.steps = front' ++ back := by
      apply ih (front ++ [st.instr]) s s' j hs
      · rw [hsteps, List.append_assoc]
        rfl
      · intro i hi
        rcases List.mem_append.mp hi with hi | hi
        · exact hfront i hi
        · rw [List.mem_singleton.mp hi]
          exact hcall
      · rw [List.length_append]
        exact h
    rw [expandWith] at h
    cases hi : st.instr with
    | call name args =>
      rw [hi] at h
      obtain ⟨ctx, s₁, hctx, h⟩ := exists_of_run_bind h
      have hsteps₁ := instrs_of_run_currentContext hctx
      obtain ⟨r, s₂, hexpand, h⟩ := exists_of_run_bind h
      obtain ⟨rfl, ops, -, rfl⟩ := run_expandCall hexpand
      obtain ⟨_, s₃, hsplice, h⟩ := exists_of_run_bind h
      obtain ⟨k, s₄, hrun, h⟩ := exists_of_run_bind h
      have hmid : Step.instrs s₂.steps =
          front ++ ([.call name args] ++ (Step.instrs rest ++ back)) := by
        rw [hsteps₁, hsteps, Step.instrs, List.map_cons, hi]
        rfl
      have hs₃ : P s₃ := hP.expand ops (hP.context hs hctx) hmid hsplice
      have hsteps₃ : Step.instrs s₃.steps =
          front ++ (Step.instrs (Step.ofList ops) ++ (Step.instrs rest ++ back)) := by
        cases hsplice
        exact instrs_splice hmid
      obtain ⟨hs₄, front', rfl, hfront', hsteps₄⟩ :=
        hdeeper front (Step.instrs rest ++ back) _ s₃ s₄ k hs₃ hsteps₃ hfront hrun
      exact ih front' s₄ s' j hs₄ hsteps₄ hfront' h
    | _ =>
      rw [hi] at h
      exact hnext (by rw [hi]; rfl) h

/-- A program whose calls were expanded has no calls. -/
theorem of_run_expandCalls (hP : KeptByExpansion o P) (hs : P s)
    (h : (expandCalls o e).run s = .ok () s') :
    P s' ∧ ∀ st ∈ s'.steps, st.instr.isCall = false := by
  have hdeep (n : Nat) : Clears P (expandDeep o n) := by
    induction n with
    | zero =>
      apply clears_expandWith hP
      intro front back steps s s' j hs hsteps hfront h
      cases h
    | succ n ih => exact clears_expandWith hP ih
  obtain ⟨_, s₁, hget, h⟩ := exists_of_run_bind h
  cases hget
  obtain ⟨j, s₂, hrun, h⟩ := exists_of_run_bind h
  cases h
  obtain ⟨hs', front, -, hfront, hsteps⟩ :=
    hdeep _ [] [] s.steps s s' j hs (List.append_nil _).symm nofun hrun
  refine ⟨hs', fun st hst => hfront _ ?_⟩
  rw [List.append_nil] at hsteps
  rw [← hsteps]
  exact List.mem_map_of_mem hst

private theorem Sound.of_expandCalls (hs : s.Sound) (h : (expandCalls o e).run s = .ok () s') :
    s'.Sound ∧ ∀ st ∈ s'.steps, st.instr.isCall = false :=
  of_run_expandCalls
    ⟨fun _ _ _ hs h => (hs.of_currentContext h).1,
      fun _ _ _ _ _ _ ops hs hsteps h => (hs.of_splice hsteps (Step.genuine_ofList ops) h).1⟩ hs h

/-! ### Slots -/

/-- The analysis that says which values are routed: the context of a program whose calls are
expanded, and its routing. -/
def analyse (o : Options) (extra : Nat) : SessionM (Context × Routing) := do
  expandCalls o extra
  let ctx ← currentContext o
  let r ← orRefuse (ctx.routing (← get).table o)
  return (ctx, r)

/-- What is known of an analysed program. -/
structure Analysed (ctx : Context) : Prop where
  branches : Branch.ofInstrs (Step.instrs ctx.steps) = .ok ctx.branches
  genuine : ∀ st ∈ ctx.steps, st.Genuine
  calls : ∀ i ∈ Step.instrs ctx.steps, i.isCall = false

/-- What is known of the program of a sound session. -/
theorem Sound.of_analyse (hs : s.Sound) {r : Routing} (h : (analyse o e).run s = .ok (ctx, r) s') :
    Analysed ctx := by
  obtain ⟨_, s₁, hcalls, h₁⟩ := exists_of_run_bind h
  obtain ⟨ctx', s₂, hctx, h₂⟩ := exists_of_run_bind h₁
  obtain ⟨_, s₃, hget, h₃⟩ := exists_of_run_bind h₂
  obtain ⟨r', s₄, hrouting, h₄⟩ := exists_of_run_bind h₃
  cases h₄
  obtain ⟨hs₁, hnone⟩ := hs.of_expandCalls hcalls
  obtain ⟨hs₂, hinstrs⟩ := hs₁.of_currentContext hctx
  obtain ⟨hof, hsteps, -⟩ := of_run_currentContext hctx
  rw [hsteps] at hinstrs
  refine ⟨Context.branches_of hof, hsteps ▸ hs₂.genuine, ?_⟩
  intro i hi
  rw [hinstrs] at hi
  obtain ⟨st, hst, rfl⟩ := List.mem_map.mp hi
  exact hnone st hst

/-- Marking duplicates keeps the instructions. -/
theorem instrs_markDuplicates (ds : List Duplicate) (steps : List Step) :
    Step.instrs (markDuplicates ds steps) = Step.instrs steps := by
  calc Step.instrs (markDuplicates ds steps)
      = Step.instrs (steps.zipIdx.map Prod.fst) := by
        simp only [markDuplicates, Step.instrs, List.map_map, Function.comp_def]
    _ = Step.instrs steps := by rw [List.zipIdx_map_fst]

private theorem genuine_markDuplicates {ds : List Duplicate} (h : ∀ st ∈ steps, st.Genuine) :
    ∀ st ∈ markDuplicates ds steps, st.Genuine := by
  intro st hst
  obtain ⟨p, hp, rfl⟩ := List.mem_map.mp hst
  have hp := h p.1 (List.fst_mem_of_mem_zipIdx hp)
  exact ⟨hp.delta, hp.args, hp.results⟩

/-- What routing does: the steps that fill the slots come to stand in front of the program. -/
theorem of_run_route (h : (route o).run s = .ok () s') :
    ∃ ctx s₁ r slots setup, (currentContext o).run s = .ok ctx s₁ ∧
      ctx.routing s₁.table o = .ok r ∧
      AltSlots.setup o.useAltStack s₁.steps r = .ok (slots, setup) ∧
      s' = { s₁ with slots, steps := setup ++ markDuplicates ctx.duplicates s₁.steps } := by
  obtain ⟨ctx, s₁, hctx, hroute⟩ := exists_of_run_bind h
  obtain ⟨_, s₂, hget, hroute⟩ := exists_of_run_bind hroute
  cases hget
  obtain ⟨r, s₃, hr, hfill⟩ := exists_of_run_bind hroute
  obtain ⟨hrouting, rfl⟩ := eq_ok_of_run_orRefuse hr
  obtain ⟨_, s₄, hget, hfill⟩ := exists_of_run_bind hfill
  cases hget
  cases hsetup : AltSlots.setup o.useAltStack s₃.steps r with
  | error e =>
    rw [hsetup] at hfill
    cases hfill
  | ok p =>
    obtain ⟨slots, setup⟩ := p
    rw [hsetup] at hfill
    cases hfill
    exact ⟨ctx, s₃, r, slots, setup, hctx, hrouting, hsetup, rfl⟩

/-- Straight code that fills the slots of routed names is put in front of the analysed program. -/
theorem Sound.of_route (hs : s.Sound) (hcalls : (expandCalls o e).run s = .ok () s') {s'' : Session}
    (h : (route o).run s' = .ok () s'') :
    ∃ ctx r s₁ setup, (analyse o e).run s = .ok (ctx, r) s₁ ∧ s''.Sound ∧ IsCode setup ∧
      s''.slots ⊆ r.names ∧ Step.instrs s''.steps = Step.instrs setup ++ Step.instrs ctx.steps := by
  obtain ⟨ctx, s₁, r, slots, setup, hctx, hrouting, hsetup, rfl⟩ := of_run_route h
  obtain ⟨hs₁, -⟩ := (hs.of_expandCalls hcalls).1.of_currentContext hctx
  obtain ⟨-, hsteps, -⟩ := of_run_currentContext hctx
  obtain ⟨hcode, hslots⟩ := AltSlots.setup_code hsetup
  refine ⟨ctx, r, s₁, setup, ?_, ⟨?_, hs₁.free⟩, hcode, hslots, ?_⟩
  · rw [analyse, run_bind_ok hcalls, run_bind_ok hctx]
    simp [EStateM.run_bind, hrouting]
  · intro st hst
    rcases List.mem_append.mp hst with hst | hst
    · exact hcode.genuine st hst
    · exact genuine_markDuplicates hs₁.genuine st hst
  · rw [← hsteps, ← instrs_markDuplicates ctx.duplicates s₁.steps]
    exact List.map_append

end NamedStack.Session
