import NamedStack.Proofs.Named.Faithful

/-!
# The context of a program that is being resolved

A structured program keeps its context while it is resolved: its conditionals stay balanced and
even, what is read behind a position is what the context finds there, and nothing has to be routed
to the alt stack.
-/

namespace NamedStack.Named

variable {stack : List Name} {shape : Shape} {ops rest : List Instr} {count : Nat} {h : Heights}

/-- Whether a context says of its steps what they are, where a stack is the initial one. -/
structure Views (stack : List Name) (ctx : Context) : Prop where
  stack_eq : ctx.stack = stack
  faithful : ∀ s ∈ ctx.steps, Faithful s
  branches : Branch.ofInstrs (Step.instrs ctx.steps) = .ok ctx.branches
  assumptions : ∀ i name, (i, name) ∈ ctx.assumptions ↔
    ∃ s, ctx.steps[i]? = some s ∧ (s.instr = .assume name ∨ s.instr = .var name ∧ name ∈ stack)
  reads : ∀ i name, (i, name) ∈ ctx.reads ↔
    ∃ s, ctx.steps[i]? = some s ∧ s.instr = .var name ∧ name ∉ stack
  assignments : ∀ i name, (i, name) ∈ ctx.assignments ↔
    ∃ s, ctx.steps[i]? = some s ∧ s.instr = .assign name

variable {names : List Name} {t : Table}

private theorem assumed?_iff (ht : t.Knows stack names) {i : Instr} {name : Name} :
    Context.assumed? t i = some name ↔ i = .assume name ∨ i = .var name ∧ name ∈ stack := by
  cases i with
  | var x =>
    simp only [Context.assumed?, ht.isStackItem_iff]
    by_cases hx : x ∈ stack
    · simp only [hx, if_true, Option.some.injEq, reduceCtorEq, Instr.var.injEq, false_or]
      exact ⟨fun h => ⟨h, h ▸ hx⟩, fun h => h.1⟩
    · simp only [hx, if_false, reduceCtorEq, Instr.var.injEq, false_or, false_iff, not_and]
      exact fun h hname => hx (h ▸ hname)
  | _ => simp [Context.assumed?]

private theorem variableRead?_iff (ht : t.Knows stack names) {i : Instr} {name : Name} :
    Context.variableRead? t i = some name ↔ i = .var name ∧ name ∉ stack := by
  cases i with
  | var x =>
    simp only [Context.variableRead?, ht.isStackItem_iff]
    by_cases hx : x ∈ stack
    · simp only [hx, if_true, reduceCtorEq, Instr.var.injEq, false_iff, not_and, not_not]
      exact fun h => h ▸ hx
    · simp only [hx, if_false, Option.some.injEq, Instr.var.injEq]
      exact ⟨fun h => ⟨h, h ▸ hx⟩, fun h => h.1⟩
  | _ => simp [Context.variableRead?]

/-- A program that can be followed from the left, and reads of the initial stack only what is
declared there, has a context. -/
theorem exists_context (ht : t.Knows stack names) {o : Options}
    (ho : o.allowInvalidComparisons = true) {steps : List Step} (hsteps : ∀ s ∈ steps, Faithful s)
    (hassume : ∀ s ∈ steps, ∀ name, s.instr = .assume name → name ∈ stack)
    (hrun : Heights.run { now := stack.length } steps = some h) (hlevels : h.levels = []) :
    ∃ ctx, Context.of t o steps = .ok ctx ∧ Views stack ctx ∧
      Step.instrs ctx.steps = Step.instrs steps := by
  obtain ⟨bs, hbs⟩ := Context.exists_branches (endsFree_of_faithful hsteps) hrun hlevels
  have hget := Context.getElem?_refined steps
  have hinstrs := Context.instrs_refined steps
  have hinstr (i : Nat) (f : Instr → Prop) :
      (∃ s, (steps.zipIdx.map fun p => Context.refine steps p.2 p.1)[i]? = some s ∧ f s.instr) ↔
        ∃ s, steps[i]? = some s ∧ f s.instr := by
    simp only [hget, Option.map_eq_some_iff]
    constructor
    · rintro ⟨_, ⟨s, hs, rfl⟩, hf⟩
      rw [Context.instr_refine] at hf
      exact ⟨s, hs, hf⟩
    · rintro ⟨s, hs, hf⟩
      refine ⟨_, ⟨s, hs, rfl⟩, ?_⟩
      rwa [Context.instr_refine]
  have hdeclared : Context.undeclared? t (Context.occurrences steps (Context.assumed? t))
      o.reported = none := by
    refine Context.undeclared?_eq_none_iff.mpr ?_
    rintro ⟨i, name⟩ hmem
    obtain ⟨s, hs, hname⟩ := mem_occurrences.mp hmem
    have hname : name ∈ stack := by
      rcases (assumed?_iff ht).mp hname with hi | hi
      · exact hassume s (List.mem_of_getElem? hs) name hi
      · exact hi.2
    exact Option.isSome_iff_ne_none.mp (ht.item name hname)
  refine ⟨_, by simp only [Context.of, hbs, bind, Except.bind, hdeclared, ho, if_true]; rfl, ?_,
    hinstrs⟩
  refine ⟨ht.stack_eq, fun s hs => ?_, by rw [hinstrs]; exact hbs, fun i name => ?_,
    fun i name => ?_, fun i name => ?_⟩
  · obtain ⟨i, hi⟩ := List.getElem?_of_mem hs
    rw [hget, Option.map_eq_some_iff] at hi
    obtain ⟨s', hs', rfl⟩ := hi
    exact faithful_refine (hsteps s' (List.mem_of_getElem? hs')) steps i
  · rw [hinstr i fun ins => ins = .assume name ∨ ins = .var name ∧ name ∈ stack, mem_occurrences]
    simp only [assumed?_iff ht]
  · rw [hinstr i fun ins => ins = .var name ∧ name ∉ stack, mem_occurrences]
    simp only [variableRead?_iff ht]
  · rw [hinstr i fun ins => ins = .assign name, mem_occurrences]
    simp only [Context.assigned?_iff]

/-! ### Reads that follow -/

/-- Whether an instruction is the first to use a name, and reads it. -/
private def ReadsFirst (name : Name) (ops : List Instr) (j : Nat) : Prop :=
  (∃ i, ops[j]? = some i ∧ IsRead i name) ∧ ∀ k < j, ops[k]? ≠ some (.assign name)

private theorem ReadsFirst.cons {name : Name} {i : Instr} (hi : i ≠ .assign name)
    (h : ∃ j, ReadsFirst name ops j) : ∃ j, ReadsFirst name (i :: ops) j := by
  obtain ⟨j, hread, hnone⟩ := h
  refine ⟨j + 1, hread, fun l hl => ?_⟩
  cases l with
  | zero => simpa using hi
  | succ l => exact hnone l (by omega)

private theorem exists_of_live {name : Name} (h : live name ops = true) :
    ∃ j, ReadsFirst name ops j := by
  fun_induction live name ops with
  | case1 => cases h
  | case2 x rest ih =>
    by_cases hx : x = name
    · exact ⟨0, ⟨_, rfl, .inl (by rw [hx])⟩, nofun⟩
    · exact ReadsFirst.cons nofun (ih (by simpa [hx] using h))
  | case3 x rest ih =>
    by_cases hx : x = name
    · exact ⟨0, ⟨_, rfl, .inr (by rw [hx])⟩, nofun⟩
    · exact ReadsFirst.cons nofun (ih (by simpa [hx] using h))
  | case4 x rest ih =>
    simp only [Bool.and_eq_true, decide_eq_true_eq] at h
    exact ReadsFirst.cons (by simpa using h.1) (ih h.2)
  | case5 i rest _ _ hassign ih => exact ReadsFirst.cons (fun he => hassign name he) (ih h)

namespace Views

variable {ctx : Context} {name : Name} {i : Nat}

private theorem getElem?_after {j : Nat} {ins : Instr}
    (h : ((Step.instrs ctx.steps).drop (i + 1))[j]? = some ins) :
    ∃ s, ctx.steps[i + 1 + j]? = some s ∧ s.instr = ins := by
  rw [List.getElem?_drop, Step.instrs, List.getElem?_map] at h
  exact Option.map_eq_some_iff.mp h

/-- A name is not read after a position exactly if nothing is counted there. -/
theorem not_read_iff (hv : Views stack ctx) :
    ctx.reads.countAfter name i = 0 ∧ ctx.assumptions.countAfter name i = 0 ↔
      ∀ ins ∈ (Step.instrs ctx.steps).drop (i + 1), ¬ IsRead ins name := by
  rw [countAfter_eq_zero_iff, countAfter_eq_zero_iff]
  constructor
  · rintro ⟨hreads, hassumptions⟩ ins hins hread
    obtain ⟨j, hj⟩ := List.getElem?_of_mem hins
    obtain ⟨s, hs, rfl⟩ := getElem?_after hj
    by_cases hstack : s.instr = .assume name ∨ name ∈ stack
    · have := hassumptions _ ((hv.assumptions _ _).mpr ⟨s, hs, by
        rcases hread with h | h
        · exact .inl h
        · exact hstack.imp id fun hm => ⟨h, hm⟩⟩)
      omega
    · rw [not_or] at hstack
      have := hreads _ ((hv.reads _ _).mpr ⟨s, hs, hread.resolve_left hstack.1, hstack.2⟩)
      omega
  · intro hnone
    have hle {j : Nat} {s : Step} (hs : ctx.steps[j]? = some s) (hread : IsRead s.instr name) :
        j ≤ i := by
      by_contra hlt
      refine hnone s.instr (List.mem_of_getElem? (i := j - (i + 1)) ?_) hread
      rw [List.getElem?_drop, Step.instrs, List.getElem?_map,
        show i + 1 + (j - (i + 1)) = j by omega, hs]
      rfl
    refine ⟨fun j hj => ?_, fun j hj => ?_⟩
    · obtain ⟨s, hs, hvar, -⟩ := (hv.reads _ _).mp hj
      exact hle hs (.inr hvar)
    · obtain ⟨s, hs, hread⟩ := (hv.assumptions _ _).mp hj
      exact hle hs (hread.imp id fun h => h.1)

/-- After the last read of a name of the initial stack, it is not to be read any more. -/
theorem live_of_followingReads (hv : Views stack ctx) (hname : name ∈ stack)
    (hzero : ctx.followingReads name i = 0) :
    live name ((Step.instrs ctx.steps).drop (i + 1)) = false := by
  refine Bool.eq_false_of_not_eq_true fun hlive => ?_
  obtain ⟨j, ⟨ins, hj, hread⟩, -⟩ := exists_of_live hlive
  refine hv.not_read_iff.mp ⟨countAfter_eq_zero_iff.mpr fun k hk => ?_, hzero⟩ ins
    (List.mem_of_getElem? hj) hread
  obtain ⟨s, -, -, hnot⟩ := (hv.reads _ _).mp hk
  exact absurd hname hnot

/-- After the last read of another name before it is written, it is not to be read. -/
theorem live_of_followingUses (hv : Views stack ctx) (hname : name ∉ stack)
    (hassume : ∀ s ∈ ctx.steps, s.instr ≠ .assume name) (hzero : ctx.followingUses name i = 0) :
    live name ((Step.instrs ctx.steps).drop (i + 1)) = false := by
  refine Bool.eq_false_of_not_eq_true fun hlive => ?_
  obtain ⟨j, ⟨ins, hj, hread⟩, hnone⟩ := exists_of_live hlive
  obtain ⟨s, hs, rfl⟩ := getElem?_after hj
  have hvar := hread.resolve_left (hassume s (List.mem_of_getElem? hs))
  have hmem : i + 1 + j ∈ ctx.reads.of name :=
    mem_occurrencesOf.mpr ((hv.reads _ _).mpr ⟨s, hs, hvar, hname⟩)
  rw [Context.followingUses, List.length_eq_zero_iff, List.filter_eq_nil_iff] at hzero
  refine hzero _ hmem ?_
  rw [Bool.and_eq_true, decide_eq_true_eq, decide_eq_true_eq]
  refine ⟨by omega, ?_⟩
  -- the next write, if there is one, lies behind the read
  cases hfind : (ctx.assignments.of name).find? (i < ·) with
  | none => exact (List.getElem?_eq_some_iff.mp hs).1
  | some a =>
    have hlt : i < a := by simpa using List.find?_some hfind
    obtain ⟨s', hs', hassign⟩ := (hv.assignments _ _).mp
      (mem_occurrencesOf.mp (List.mem_of_find?_eq_some hfind))
    change i + 1 + j < a
    by_contra hle
    rcases Nat.lt_or_eq_of_le (Nat.not_lt.mp hle) with hlt' | rfl
    · refine hnone (a - (i + 1)) (by omega) ?_
      rw [List.getElem?_drop, Step.instrs, List.getElem?_map,
        show i + 1 + (a - (i + 1)) = a by omega, hs']
      exact congrArg some hassign
    · cases hs.symm.trans hs'
      cases hvar.symm.trans hassign

end Views

/-! ### Nothing is routed -/

/-- At the start there are no expressions. -/
theorem above_start (stack : List Name) :
    Above stack.length {} { now := stack.length } := ⟨by simp, rfl⟩

private theorem exists_shape_at {front back : List Step} {s : Step}
    (hfaithful : ∀ s ∈ front, Faithful s)
    (hshape : Shape.run stack {} (Step.instrs (front ++ s :: back)) = some shape) :
    ∃ shape₁ shape₂ h count, Shape.step stack shape₁ s.instr = some shape₂ ∧
      Heights.run { now := stack.length } front = some h ∧ Above count shape₁ h := by
  rw [Step.instrs, List.map_append, List.map_cons, Shape.run, List.foldlM_append] at hshape
  obtain ⟨shape₁, hfront, hrest⟩ := Option.bind_eq_some_iff.mp hshape
  obtain ⟨shape₂, hstep, -⟩ := Option.bind_eq_some_iff.mp hrest
  obtain ⟨h, count, hrun, ha⟩ := (above_start stack).run hfront
  refine ⟨shape₁, shape₂, h, count, hstep, ?_, ha⟩
  rw [heights_eq_of_faithful hfaithful]
  exact hrun

namespace Views

variable {ctx : Context}

private theorem uneven_eq_nil (hv : Views stack ctx)
    (hshape : Shape.run stack {} (Step.instrs ctx.steps) = some shape) : ctx.uneven = [] := by
  apply Context.uneven_eq_nil hv.branches (endsFree_of_faithful hv.faithful)
  intro front s back h₁ l ls hsplit hend hfront hl
  rw [hsplit] at hshape
  obtain ⟨shape₁, shape₂, h₂, count, hstep, hrun₂, ha⟩ := exists_shape_at
    (fun s hs => hv.faithful s (hsplit ▸ List.mem_append_left _ hs)) hshape
  cases hrun₂.symm.trans hfront
  rw [hend] at hstep
  cases Shape.moves_of_step hstep with
  | plain hmark => cases hmark
  | opens ho => rcases ho with h | h <;> cases h
  | @closes a arms harms hheight =>
    have hlevels := ha.levels
    rw [harms, List.map_cons, hl] at hlevels
    cases hlevels
    rw [ha.now, hheight]
    cases a.arm <;> rfl
  | read hi _ => rcases hi with h | h <;> cases h

private theorem nestLevel_of_write (hv : Views stack ctx)
    (hshape : Shape.run stack {} (Step.instrs ctx.steps) = some shape) {i : Nat} {name : Name}
    (hi : (i, name) ∈ ctx.assignments) : ctx.nestLevel i = 0 := by
  obtain ⟨s, hs, hassign⟩ := (hv.assignments i name).mp hi
  obtain ⟨hlt, hget⟩ := List.getElem?_eq_some_iff.mp hs
  have hsplit : ctx.steps = ctx.steps.take i ++ s :: ctx.steps.drop (i + 1) := by
    rw [← hget, ← List.drop_eq_getElem_cons hlt, List.take_append_drop]
  rw [hsplit] at hshape
  obtain ⟨shape₁, shape₂, h, count, hstep, hrun, ha⟩ := exists_shape_at
    (fun s hs => hv.faithful s (List.mem_of_mem_take hs)) hshape
  rw [Context.nestLevel_eq_zero_iff hv.branches (endsFree_of_faithful hv.faithful) hs
    (by rw [hassign]; nofun) (by rw [hassign]; nofun) hrun, ha.levels, List.map_eq_nil_iff]
  rw [hassign] at hstep
  cases Shape.moves_of_step hstep with
  | write hopen _ => exact hopen
  | read hi _ => rcases hi with h | h <;> cases h

/-- A structured program has nothing to route. -/
theorem routing_eq (hv : Views stack ctx)
    (hshape : Shape.run stack {} (Step.instrs ctx.steps) = some shape) (t : Table) (o : Options) :
    ctx.routing t o = .ok {} :=
  ctx.routing_of_uneven (hv.uneven_eq_nil hshape) (fun _ _ hi =>
    hv.nestLevel_of_write hshape (mem_occurrencesOf.mp hi)) t o

end Views

end NamedStack.Named
