import NamedStack.Proofs.Machine.Straight

/-!
# Straight-line programs

In a program without conditionals, writes, calls and inner scripts nothing is routed, and passes
replace the reads from the left. So what stands in front of a read that is replaced, and the code in
its place, is the front of the script.
-/

namespace NamedStack

open Engine

/-! ### Straight-line programs -/

/-- Whether an instruction is an opcode that is no marker, data or a read. -/
def Instr.isLinear : Instr → Bool
  | .op o => !o.isMarker
  | .push _ | .assume _ | .var _ => true
  | _ => false

/-- Whether an instruction is an opcode or data. -/
def Instr.isPlaced : Instr → Bool
  | .op _ | .push _ => true
  | _ => false

private theorem Branch.ofInstrs_of_isLinear {ops : List Instr} (h : ∀ i ∈ ops, i.isLinear = true) :
    Branch.ofInstrs ops = .ok [] := by
  have hrun (j : Nat) : ({} : Scan).run j ops = .ok {} := by
    induction ops generalizing j with
    | nil => rfl
    | cons i rest ih =>
      obtain ⟨hi, hrest⟩ := List.forall_mem_cons.mp h
      have hstep : ({} : Scan).step j i = .ok {} := by
        cases i with
        | op o =>
          cases o with
          | opIf | opNotIf | opElse | opEndIf => cases hi
          | _ => rfl
        | _ => rfl
      rw [Scan.run, hstep]
      exact ih hrest (j + 1)
  rw [Branch.ofInstrs, hrun]
  rfl

namespace Context

variable {ctx : Context}

/-- Without conditionals the deltas of all steps in front of a position add up to the height. -/
theorem heightAt_of_branches (h : ctx.branches = []) (i : Nat) :
    ctx.heightAt i = ctx.stack.length + ((ctx.steps.take i).map (·.delta)).sum := by
  have hcounts (j : Nat) : ctx.counts j i = true := by
    rw [counts, h]
    rfl
  have hdeltas : ((ctx.steps.take i).zipIdx.filterMap fun p =>
      if ctx.counts p.2 i then some p.1.delta else none) = (ctx.steps.take i).map (·.delta) := by
    simp only [hcounts, if_true]
    rw [List.filterMap_eq_map', ← Function.comp_def (fun s : Step => s.delta), ← List.map_map,
      List.zipIdx_map_fst]
  rw [heightAt, hdeltas, List.sum_eq_foldr]

end Context

/-- Nothing but straight code comes in place of a read. -/
theorem Expands.isLinear {slots : List Name} {nested : Prop} {i : Instr} {code : List Instr}
    (h : Expands slots nested i code) (hi : i.isLinear = true) (hop : ∀ o, i ≠ .op o) :
    ∀ j ∈ code, j.isLinear = true ∧ Steady j := by
  cases h with
  | same =>
    intro j hj
    obtain rfl := List.mem_singleton.mp hj
    cases j with
    | op o => exact absurd rfl (hop o)
    | _ => exact ⟨hi, trivial⟩
  | inner | dropped | stored => cases hi
  | read _ hcode =>
    intro j hj
    have hstraight := hcode j hj
    cases j with
    | op o => exact ⟨by simpa [Instr.isLinear] using hstraight.1, hstraight.2⟩
    | push data => exact ⟨rfl, trivial⟩
    | _ => exact hstraight.elim

/-! ### Steps -/

private theorem Step.tallied_of_steady {st : Step} (h : Steady st.instr) : st.Tallied := by
  intro check r hinstr hr
  rw [hinstr] at h
  cases check with
  | checkMultiSig | checkMultiSigVerify => exact h.elim
  | _ => cases hr

private theorem Step.tallied_of (i : Instr) : (Step.of i).Tallied := by
  intro check r hinstr hr
  obtain rfl : i = .op check := hinstr
  cases check with
  | checkMultiSig | checkMultiSigVerify => exact .inl rfl
  | _ => cases hr

private theorem Step.Tallied.refine {st : Step} (h : st.Tallied) (steps : List Step) (i : Nat) :
    (Context.refine steps i st).Tallied := by
  intro check r hinstr hr
  rw [Context.instr_refine] at hinstr
  cases hm : Context.multisigAt? steps i with
  | some m => exact .inr ⟨m, Context.counts_refine hinstr hr hm⟩
  | none =>
    rw [Context.refine_of_multisigAt?_eq_none hinstr hr hm]
    exact h check r hinstr hr

/-! ### Tables -/

namespace Session

private theorem bindAssigned_eq_self {steps : List Step}
    (h : ∀ st ∈ steps, ∀ name, st.instr ≠ .assign name) (t : Table) : bindAssigned t steps = t := by
  induction steps with
  | nil => rfl
  | cons st rest ih =>
    obtain ⟨hst, hrest⟩ := List.forall_mem_cons.mp h
    rw [bindAssigned, List.foldl_cons]
    cases hi : st.instr with
    | assign name => exact absurd hi (hst name)
    | _ => exact ih hrest

private theorem recordAssigned_nil (t : Table) : recordAssigned t [] = t := by
  have hnames : Occurrences.names [] = [] := List.mergeSort_nil
  rw [recordAssigned, hnames]
  rfl

/-! ### Sessions of straight-line programs -/

variable {inner : InnerResult} {o : Options} {opt : Option Peephole.Optimizer}
variable {s s' : Session} {ctx : Context} {k : Nat} {r : Replacement} {t : Table}

/-- A session with a straight-line program, in which names stand for what they stood for at its
start and none has a slot. -/
structure Linear (t : Table) (s : Session) : Prop extends s.Sound where
  linear : ∀ st ∈ s.steps, st.instr.isLinear = true
  tallied : ∀ st ∈ s.steps, st.Tallied
  table : s.table = t
  slots : s.slots = []

/-- The context of a straight-line program. -/
structure Flat (t : Table) (ctx : Context) : Prop where
  branches : ctx.branches = []
  assignments : ctx.assignments = []
  stack : ctx.stack = t.stack

namespace Linear

/-- A straight-line program at its start. -/
theorem of_program {p : Program} (h : ∀ i ∈ p.ops, i.isLinear = true) :
    Linear (.ofProgram p) { steps := Step.ofList p.ops, table := .ofProgram p } where
  genuine := Step.genuine_ofList p.ops
  free := Table.parameterFree_ofProgram p
  linear := by
    intro st hst
    obtain ⟨i, hi, rfl⟩ := List.mem_map.mp hst
    exact h i hi
  tallied := by
    intro st hst
    obtain ⟨i, hi, rfl⟩ := List.mem_map.mp hst
    exact Step.tallied_of i
  table := rfl
  slots := rfl

variable (hs : Linear t s)

include hs

private theorem ne_assign : ∀ st ∈ s.steps, ∀ name, st.instr ≠ .assign name := by
  intro st hst name hi
  have hlinear := hs.linear st hst
  rw [hi] at hlinear
  cases hlinear

/-- A linear session is expanded. -/
theorem expanded : s.Expanded := by
  refine ⟨hs.free, fun i hi => ?_⟩
  obtain ⟨st, hst, rfl⟩ := List.mem_map.mp hi
  have hlinear := hs.linear st hst
  cases hi : st.instr with
  | call name args =>
    rw [hi] at hlinear
    cases hlinear
  | _ => rfl

private theorem of_currentContext (h : (currentContext o).run s = .ok ctx s') :
    Linear t s' ∧ Flat t ctx := by
  obtain ⟨hsound, -⟩ := hs.toSound.of_currentContext h
  obtain ⟨hof, hsteps, htable, hslots⟩ := of_run_currentContext h
  rw [bindAssigned_eq_self hs.ne_assign, hs.table] at hof htable
  obtain ⟨branches, hbranches, rfl⟩ := Context.of_cases hof
  have hassignments : Context.occurrences s.steps Context.assigned? = [] := by
    refine List.eq_nil_iff_forall_not_mem.mpr fun p hp => ?_
    obtain ⟨st, hst, hname⟩ := mem_occurrences.mp hp
    exact hs.ne_assign st (List.mem_of_getElem? hst) p.2 (Context.assigned?_iff.mp hname)
  have hrefined : ∀ st ∈ s'.steps, ∃ st' ∈ s.steps, ∃ i, st = Context.refine s.steps i st' := by
    intro st hst
    rw [hsteps] at hst
    obtain ⟨q, hq, rfl⟩ := List.mem_map.mp hst
    exact ⟨q.1, List.fst_mem_of_mem_zipIdx hq, q.2, rfl⟩
  refine ⟨⟨hsound, fun st hst => ?_, fun st hst => ?_, ?_, hslots.trans hs.slots⟩,
    ⟨?_, hassignments, rfl⟩⟩
  · obtain ⟨st', hst', i, rfl⟩ := hrefined st hst
    rw [Context.instr_refine]
    exact hs.linear st' hst'
  · obtain ⟨st', hst', i, rfl⟩ := hrefined st hst
    exact (hs.tallied st' hst').refine s.steps i
  · rw [htable]
    dsimp only
    rw [hassignments, recordAssigned_nil]
  · have hlinear : ∀ i ∈ Step.instrs s.steps, i.isLinear = true := by
      intro i hi
      obtain ⟨st, hst, rfl⟩ := List.mem_map.mp hi
      exact hs.linear st hst
    rw [Branch.ofInstrs_of_isLinear hlinear] at hbranches
    exact (Except.ok.inj hbranches).symm

private theorem optimized (hopt : ∀ p, opt = some p → p.enabled = false) :
    Linear t (s.optimized opt) := by
  have hsteps := steps_optimized hopt s
  exact ⟨⟨hsteps ▸ hs.genuine, hs.free⟩, hsteps ▸ hs.linear, hsteps ▸ hs.tallied, hs.table,
    hs.slots⟩

/-- Only doubled reads are marked in a straight-line program. -/
theorem of_route (h : (route o).run s = .ok () s') : Linear t s' := by
  obtain ⟨ctx, s₁, routing, slots, setup, hctx, hrouting, hsetup, rfl⟩ := of_run_route h
  obtain ⟨hs₁, hflat⟩ := hs.of_currentContext hctx
  have huneven : ctx.uneven = [] := by
    rw [Context.uneven, Context.conditionals, hflat.branches]
    rfl
  have hempty := ctx.routing_of_uneven huneven
    (fun name => by rw [hflat.assignments]; exact List.forall_mem_nil _) s₁.table o
  rw [hempty] at hrouting
  cases hrouting
  rw [setup_empty] at hsetup
  cases hsetup
  have hmarked : ∀ st ∈ markDuplicates ctx.duplicates s₁.steps, ∃ st' ∈ s₁.steps, ∃ b,
      st = { st' with shared := b } := by
    intro st hst
    obtain ⟨q, hq, rfl⟩ := List.mem_map.mp hst
    exact ⟨q.1, List.fst_mem_of_mem_zipIdx hq, _, rfl⟩
  refine ⟨⟨fun st hst => ?_, hs₁.free⟩, fun st hst => ?_, fun st hst => ?_, hs₁.table, rfl⟩
  · obtain ⟨st', hst', b, rfl⟩ := hmarked st hst
    have hgenuine := hs₁.genuine st' hst'
    exact ⟨hgenuine.delta, hgenuine.args, hgenuine.results⟩
  · obtain ⟨st', hst', b, rfl⟩ := hmarked st hst
    exact hs₁.linear st' hst'
  · obtain ⟨st', hst', b, rfl⟩ := hmarked st hst
    intro check r hinstr hr
    refine (hs₁.tallied st' hst' check r hinstr hr).imp_right ?_
    rintro ⟨m, hcounts⟩
    exact ⟨m, hcounts.multisig, hcounts.delta, hcounts.args⟩

variable (hopt : ∀ p, opt = some p → p.enabled = false)

include hopt

/-- What a pass finds before it replaces something. -/
theorem of_sees (h : Sees o opt s ctx) :
    Flat t ctx ∧ (∀ st ∈ ctx.steps, st.Genuine ∧ st.instr.isLinear = true ∧ st.Tallied) ∧
      recordAssigned (bindAssigned s.table (s.optimized opt).steps) ctx.assignments = t := by
  obtain ⟨s₁, hctx⟩ := h
  obtain ⟨hs₁, hflat⟩ := (hs.optimized hopt).of_currentContext hctx
  obtain ⟨-, hsteps, htable, -⟩ := of_run_currentContext hctx
  refine ⟨hflat, ?_, htable.symm.trans hs₁.table⟩
  rw [← hsteps]
  exact fun st hst => ⟨hs₁.genuine st hst, hs₁.linear st hst, hs₁.tallied st hst⟩

/-- Code comes in place of reads. -/
theorem of_edits (hinner : Inward inner) (h : Edits inner o opt s ctx k r s') : Linear t s' := by
  obtain ⟨-, hold, hsame⟩ := hs.of_sees hopt h.sees
  obtain ⟨⟨st₀, hst₀, hreplaces, hreplaceable⟩, hsteps, htable, hslots⟩ := h.spec hinner hs.expanded
  have hnew : ∀ st ∈ r.1, st.Genuine ∧ st.instr.isLinear = true ∧ st.Tallied := by
    cases hreplaces with
    | elides => exact List.forall_mem_nil _
    | code hgenuine hexpands =>
      intro st hst
      obtain ⟨hlinear, hsteady⟩ := hexpands.isLinear (hold st₀ (List.mem_of_getElem? hst₀)).2.1
        hreplaceable.2 st.instr (List.mem_map_of_mem hst)
      exact ⟨hgenuine st hst, hlinear, Step.tallied_of_steady hsteady⟩
  have hall : ∀ st ∈ s'.steps, st.Genuine ∧ st.instr.isLinear = true ∧ st.Tallied := by
    rw [hsteps]
    exact List.forall_mem_append.mpr ⟨List.forall_mem_append.mpr
      ⟨fun st hst => hold st (List.mem_of_mem_take hst), hnew⟩,
        fun st hst => hold st (List.mem_of_mem_drop hst)⟩
  exact ⟨⟨fun st hst => (hall st hst).1, (hs.expanded.of_edits hinner h).free⟩,
    fun st hst => (hall st hst).2.1, fun st hst => (hall st hst).2.2, htable.trans hsame,
    List.subset_nil.mp (hs.slots ▸ hslots)⟩

/-- Passes keep a session linear. -/
theorem of_reaches (hinner : Inward inner) (h : Reaches inner o opt s s') : Linear t s' := by
  induction h with
  | refl => exact hs
  | tail _ hpass ih =>
    obtain ⟨ctx, k, r, hedits⟩ := hpass
    exact ih.of_edits hopt hinner hedits

end Linear

/-! ### What stays in front -/

/-- Opcodes and data at the front of a program stay there. -/
theorem Edits.take_eq (h : Edits inner o opt s ctx k r s') (hinner : Inward inner)
    (hopt : ∀ p, opt = some p → p.enabled = false) (hs : s.Expanded) {n : Nat}
    (hfront : ∀ i ∈ (Step.instrs s.steps).take n, i.isPlaced = true) :
    (Step.instrs s'.steps).take n = (Step.instrs s.steps).take n := by
  have hinstrs := h.sees.instrs_eq hopt
  obtain ⟨⟨st, hst, -, hreplaceable⟩, hsteps, -⟩ := h.spec hinner hs
  -- what is replaced is neither an opcode nor data
  have hle : n ≤ k := by
    by_contra hlt
    have hmem : st.instr ∈ (Step.instrs s.steps).take n := by
      rw [← hinstrs, List.mem_iff_getElem?]
      refine ⟨k, ?_⟩
      rw [List.getElem?_take_of_lt (by omega), Step.instrs, List.getElem?_map, hst]
      rfl
    have hplaced := hfront _ hmem
    cases hi : st.instr with
    | op op => exact hreplaceable.2 op hi
    | push data =>
      rw [hi] at hreplaceable
      exact hreplaceable.1 trivial
    | _ =>
      rw [hi] at hplaced
      cases hplaced
  obtain ⟨hk, -⟩ := List.getElem?_eq_some_iff.mp hst
  rw [hsteps, ← hinstrs, List.append_assoc, Step.instrs_append, List.take_append_of_le_length,
    Step.instrs, List.map_take, List.take_take, Nat.min_eq_left hle]
  · rfl
  · rw [Step.instrs, List.length_map, List.length_take]
    omega

/-- Passes keep the placed instructions at the front. -/
theorem Reaches.take_eq (h : Reaches inner o opt s s') (hinner : Inward inner)
    (hopt : ∀ p, opt = some p → p.enabled = false) (hs : s.Expanded) {n : Nat}
    (hfront : ∀ i ∈ (Step.instrs s.steps).take n, i.isPlaced = true) :
    (Step.instrs s'.steps).take n = (Step.instrs s.steps).take n := by
  induction h with
  | refl => rfl
  | tail hreaches hpass ih =>
    obtain ⟨ctx, k, r, hedits⟩ := hpass
    exact (hedits.take_eq hinner hopt (hs.of_reaches hinner hreaches) (ih ▸ hfront)).trans ih

/-- The last pass, which replaces nothing, leaves all instructions as they are. -/
theorem instrs_of_run_pass (hinner : Inward inner) (hopt : ∀ p, opt = some p → p.enabled = false)
    (h : (pass inner o opt).run s = .ok false s') :
    Step.instrs s'.steps = Step.instrs s.steps := by
  obtain ⟨ctx, s₁, hctx, hfirst⟩ := of_run_pass_false h
  obtain ⟨hkeeps, -⟩ := unread_of_run_firstReplacement hinner hfirst
  rw [hkeeps.steps, instrs_of_run_currentContext hctx, steps_optimized hopt]

end Session

end NamedStack
