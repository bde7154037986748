import Mathlib
import NamedStack.Resolve.Run

/-!
# Runs of a session

What the operations on a session come to, as equations on the session in front of them, and how
passes end: if each pass either finds nothing to replace or leaves fewer references, and keeps an
invariant, then resolving succeeds.
-/

namespace NamedStack

/-- The references of programs one after another. -/
theorem Measure.referencesList_append (a b : List Instr) :
    referencesList (a ++ b) = referencesList a + referencesList b := by
  induction a with
  | nil => simp [referencesList]
  | cons i a ih => simp [referencesList, ih, Nat.add_assoc]

/-- One step from a position on is the step there. -/
theorem Step.take_one_drop {steps : List Step} {i : Nat} {st : Step} (h : steps[i]? = some st) :
    (steps.drop i).take 1 = [st] := by
  rw [List.take_one, List.head?_drop, h]
  rfl

namespace Session

open EStateM (run_bind run_pure run_get run_modify)

variable {s s' : Session} {o : Options} {e : Nat}

/-- A computation behind one that succeeds. -/
theorem run_bind_ok {α β : Type} {x : SessionM α} {f : α → SessionM β} {a : α}
    (h : x.run s = .ok a s') : (x >>= f).run s = (f a).run s' := by
  rw [run_bind, h]

/-- A result is not refused. -/
@[simp]
theorem run_orRefuse_ok {α : Type} (a : α) (s : Session) : (orRefuse (.ok a)).run s = .ok a s := rfl

/-! ### Contexts -/

variable {ctx : Context} {i : Nat} {m : Machine} {inner : InnerResult}
  {opt : Option Peephole.Optimizer}

/-- Finding the context of a session. -/
theorem run_currentContext (h : Context.of (bindAssigned s.table s.steps) o s.steps = .ok ctx) :
    (currentContext o).run s = .ok ctx
      { s with
        steps := ctx.steps
        table := recordAssigned (bindAssigned s.table s.steps) ctx.assignments } := by
  simp [currentContext, run_bind, h]

/-! ### Calls -/

private theorem run_expandWith {deeper : Nat → List Step → SessionM Nat} {steps : List Step}
    (h : ∀ st ∈ steps, st.instr.isCall = false) (i : Nat) :
    (expandWith deeper o i steps).run s = .ok (i + steps.length) s := by
  induction steps generalizing i with
  | nil => rfl
  | cons st rest ih =>
    have hcall := h st List.mem_cons_self
    have hrest := ih (fun st hst => h st (List.mem_cons_of_mem _ hst)) (i + 1)
    rw [expandWith]
    cases hi : st.instr with
    | call name args => rw [hi] at hcall; cases hcall
    | _ =>
      simp only [hrest, List.length_cons]
      congr 1
      omega

/-- A program without calls stays as it is. -/
theorem run_expandCalls (h : ∀ st ∈ s.steps, st.instr.isCall = false) :
    (expandCalls o e).run s = .ok () s := by
  have hdeep (n : Nat) : (expandDeep o n 0 s.steps).run s = .ok (0 + s.steps.length) s := by
    cases n with
    | zero => exact run_expandWith h 0
    | succ n => exact run_expandWith h 0
  simp [expandCalls, run_bind, hdeep]

/-! ### Without slots -/

/-- Without a slot a name is not read from one. -/
theorem run_fromSlot_of_notMem {name : Name} (h : name ∉ s.slots) (m : Machine) (last : Bool) :
    (fromSlot m name last).run s = .ok none s := by
  have hslot : AltSlots.slot? s.slots name = none := by
    rw [AltSlots.slot?, List.findIdx?_eq_none_iff]
    rintro other hother
    exact decide_eq_false (ne_of_mem_of_not_mem hother h)
  have hget : AltSlots.get s.slots m.altHeight name last = .ok none := by
    rw [AltSlots.get, AltSlots.above, hslot]
    rfl
  simp [fromSlot, run_bind, hget]

/-- Without slots no name is read from one. -/
theorem run_fromSlot (h : s.slots = []) (m : Machine) (name : Name) (last : Bool) :
    (fromSlot m name last).run s = .ok none s :=
  run_fromSlot_of_notMem (h ▸ List.not_mem_nil) m last

/-- The machine at a position. -/
theorem run_machineAt (h : (Machine.start ctx.stack).run (ctx.steps.take i) = .ok m) :
    (machineAt ctx i).run s = .ok m s := by
  rw [machineAt, h]
  rfl

/-- A write stays while the name is read after it, and is dropped then. -/
theorem run_writeName (h : s.slots = [])
    (hm : (Machine.start ctx.stack).run (ctx.steps.take i) = .ok m) (name : Name) :
    (writeName ctx i name).run s = .ok
      (if ctx.reads.countAfter name i = 0 ∧ ctx.assumptions.countAfter name i = 0 then some ([], 1)
        else none) s := by
  have hset : AltSlots.set [] m.altHeight name = .ok none := rfl
  simp only [writeName, run_bind, run_machineAt hm, run_get, h, hset, run_orRefuse_ok]
  by_cases hr : ctx.reads.countAfter name i = 0
  · by_cases ha : ctx.assumptions.countAfter name i = 0
    · simp [hr, ha]
    · simp [hr, ha, Nat.pos_of_ne_zero ha]
  · simp [hr, Nat.pos_of_ne_zero hr]

/-- Without values to route there are no slots. -/
theorem setup_empty (enabled : Bool) (steps : List Step) :
    AltSlots.setup enabled steps {} = .ok ([], []) := by
  have hempty : (if enabled then AltSlots.byDepth [] else []) = [] := by
    split
    · exact List.mergeSort_nil
    · rfl
  rw [AltSlots.setup, hempty]
  rfl

/-- A program with nothing to route only has its doubled reads marked. -/
theorem run_route (hctx : (currentContext o).run s = .ok ctx s')
    (hrouting : ctx.routing s'.table o = .ok {}) :
    (route o).run s =
      .ok () { s' with slots := [], steps := markDuplicates ctx.duplicates s'.steps } := by
  rw [route, run_bind_ok hctx]
  simp [run_bind, hrouting, setup_empty]

/-! ### Reads that need no steps -/

private theorem adjacentReads_prefix (t : Table) (slots : AltSlots) (above : Option Int)
    (steps : List Step) :
    adjacentReads t slots above steps <+: steps ∧
      ∀ st ∈ adjacentReads t slots above steps, ∃ x, st.instr = .assume x := by
  induction steps generalizing above with
  | nil => exact ⟨List.prefix_rfl, nofun⟩
  | cons st rest ih =>
    rw [adjacentReads]
    split
    · next x hx =>
      split
      · exact ⟨List.nil_prefix, nofun⟩
      · split
        · next depth hplace =>
          split
          · obtain ⟨hfront, hassume⟩ := ih (some depth)
            refine ⟨List.cons_prefix_cons.mpr ⟨rfl, hfront⟩, fun st' hst' => ?_⟩
            rcases List.mem_cons.mp hst' with rfl | hst'
            · exact ⟨x, hx⟩
            · exact hassume st' hst'
          · exact ⟨List.nil_prefix, nofun⟩
        · exact ⟨List.nil_prefix, nofun⟩
    · exact ⟨List.nil_prefix, nofun⟩

private theorem longest_spec (ctx : Context) (m : Machine) (pos : Nat) (reads : List Step)
    (n : Nat) :
    elidable.longest ctx m pos reads n = 0 ∨
      elidable.longest ctx m pos reads n ≤ n ∧
        onTop ctx m pos (reads.take (elidable.longest ctx m pos reads n)) = true := by
  induction n with
  | zero => exact .inl rfl
  | succ n ih =>
    rw [elidable.longest]
    split
    · next htop => exact .inr ⟨Nat.le_refl _, htop⟩
    · exact ih.imp id fun h => ⟨h.1.trans (Nat.le_succ n), h.2⟩

/-- The reads that need no steps find their values on top. -/
theorem elidable_spec {t : Table} {slots : AltSlots} {pos n : Nat}
    (hn : elidable ctx t slots m pos = n) (hpos : 0 < n) :
    ∃ reads, reads <+: ctx.steps.drop pos ∧ reads.length = n ∧
      (∀ st ∈ reads, ∃ x, st.instr = .assume x) ∧ onTop ctx m pos reads = true := by
  obtain ⟨hfront, hassume⟩ := adjacentReads_prefix t slots none (ctx.steps.drop pos)
  generalize hreads : adjacentReads t slots none (ctx.steps.drop pos) = reads at *
  have hspec := longest_spec ctx m pos reads reads.length
  rw [elidable, hreads] at hn
  rw [hn] at hspec
  rcases hspec with hzero | ⟨hle, htop⟩
  · omega
  · exact ⟨reads.take n, (List.take_prefix n reads).trans hfront, List.length_take_of_le hle,
      fun st hst => hassume st (List.mem_of_mem_take hst), htop⟩

/-! ### Passes -/

/-- The session in front of which a pass looks for its context. -/
def optimized (opt : Option Peephole.Optimizer) (s : Session) : Session :=
  { s with
    steps := match opt with
      | some opt => opt.run s.steps
      | none => s.steps
    tally := { s.tally with passes := s.tally.passes + 1 } }

/-- The search of a pass, in the program that an optimizer has left. -/
def search (inner : InnerResult) (o : Options) : SessionM Bool := do
  let ctx ← currentContext o
  match ← firstReplacement inner ctx 0 ctx.steps with
  | some (i, new, n) =>
    splice i n new
    return true
  | none => return false

/-- A pass is a search in the optimized program. -/
theorem run_pass (inner : InnerResult) (o : Options) (opt : Option Peephole.Optimizer)
    (s : Session) : (pass inner o opt).run s = (search inner o).run (s.optimized opt) := by
  cases opt with
  | none => rfl
  | some opt => rfl

/-- A pass that finds nothing. -/
theorem run_pass_none (hctx : (currentContext o).run (s.optimized opt) = .ok ctx s')
    (hfirst : (firstReplacement inner ctx 0 ctx.steps).run s' = .ok none s') :
    (pass inner o opt).run s = .ok false s' := by
  rw [run_pass, search, run_bind_ok hctx, run_bind_ok hfirst]
  rfl

/-- A pass that puts a replacement in place. -/
theorem run_pass_some (hctx : (currentContext o).run (s.optimized opt) = .ok ctx s')
    {r : Replacement}
    (hfirst : (firstReplacement inner ctx 0 ctx.steps).run s' = .ok (some (i, r)) s')
    {s'' : Session} (hsplice : (splice i r.2 r.1).run s' = .ok () s'') :
    (pass inner o opt).run s = .ok true s'' := by
  rw [run_pass, search, run_bind_ok hctx, run_bind_ok hfirst]
  simp only
  rw [run_bind_ok hsplice]
  rfl

/-! ### Inner scripts and all passes -/

/-- The session in which an inner script is resolved. -/
def child (ops : List Instr) (s : Session) : Session :=
  { steps := Step.ofList ops
    table := (s.table.enter .innerScript).declareStack []
    tally := s.tally }

/-- An inner script leaves the session around it but for what is counted. -/
theorem run_innerWith (run : SessionM Unit) (ops : List Instr) (s : Session) :
    (innerWith run ops).run s =
      match run.run (s.child ops) with
      | .ok _ c =>
        let new := Step.instrs c.steps
        .ok (if new = ops then none else some ([Step.of (.inner new)], 1))
          { s with tally := c.tally }
      | .error f c => .error f { s with tally := c.tally } := by
  rw [innerWith, EStateM.run_bind, EStateM.run_get]
  change EStateM.run (match run.run (s.child ops) with
    | .ok _ c => _
    | .error f c => _) s = _
  cases run.run (s.child ops) with
  | ok => rfl
  | error => rfl

/-- If each pass from a session with an invariant either finds nothing to replace, or keeps the
invariant with fewer references, then resolving ends without a failure. -/
theorem run_resolve {I F : Session → Prop} {pass : SessionM Bool}
    (hpass : ∀ s, I s → (∃ s', pass.run s = .ok false s' ∧ F s') ∨
      ∃ s', pass.run s = .ok true s' ∧ I s' ∧ s'.references < s.references)
    {n : Nat} (hs : I s) (hn : s.references < n) :
    ∃ s', (resolve pass e n).run s = .ok () s' ∧ F s' := by
  induction n generalizing s with
  | zero => omega
  | succ n ih =>
    have hunfold : (resolve pass e (n + 1)).run s =
        (settle (resolve pass e n) pass (Measure.slackList (Step.instrs s.steps) + e + 1)).run
          s := by
      simp [resolve, run_bind]
    rw [hunfold]
    rcases hpass s hs with ⟨s', hrun, hF⟩ | ⟨s', hrun, hI, hlt⟩
    · exact ⟨s', by simp [settle, run_bind, hrun], hF⟩
    · obtain ⟨s'', hrun', hF⟩ := ih hI (by omega)
      exact ⟨s'', by simp [settle, run_bind, hrun, hlt, hrun'], hF⟩

end Session

/-- A program is resolved without a failure if a session with it is. -/
theorem resolveWithin_eq_iff {e : Nat} {t : Table} {o : Options} {opt : Option Peephole.Optimizer}
    {ops : List Instr} {s : Session} :
    resolveWithin e t o opt ops = { session := s, failure := none } ↔
      (Session.resolveDeep o opt e (Measure.scriptDepth t ops + e)).run
        { steps := Step.ofList ops, table := t } = .ok () s := by
  rw [resolveWithin, EStateM.run]
  split
  · next hrun => simp [hrun]
  · next hrun => simp [hrun]

end NamedStack
