import NamedStack.Proofs.Named.Contexts
import NamedStack.Proofs.Named.Simulation
import NamedStack.Proofs.Resolve.Session

/-!
# Progress of a structured program

While a structured program is resolved, the session's program is code that is resolved from the
left, without some of its writes, and the part that is left. A pass drops a write that is not read
any more before it comes to the first read.
-/

namespace NamedStack.Named

open Session (InnerResult)

/-- Whether instructions read a name. -/
def ReadIn (ops : List Instr) (name : Name) : Prop := ∃ i ∈ ops, IsRead i name

/-- How far a session has come with a program. -/
structure Progress (p : Program) (s : Session) (code th rest : List Instr) (hidden : Hidden)
    (shape : Shape) : Prop where
  instrs : Step.instrs s.steps = th ++ rest
  faithful : ∀ st ∈ s.steps, Faithful st
  knows : s.table.Knows p.stack (writes p.ops)
  slots : s.slots = []
  resolves : ∃ done, Resolves p.stack p.ops done code hidden shape rest
  thins : Thins (ReadIn rest) code th

variable {p : Program} {s : Session} {stack : List Name} {ops done code th rest : List Instr}
  {hidden : Hidden} {shape shape' : Shape}

/-! ### Instructions of structured programs -/

variable {x : Name}

private theorem written_of_run (h : Shape.run stack shape ops = some shape')
    (hx : x ∈ shape'.written) : x ∈ shape.written ∨ x ∈ writes ops := by
  induction ops generalizing shape with
  | nil =>
    cases h
    exact .inl hx
  | cons i rest ih =>
    obtain ⟨mid, hmid, hrest⟩ := Option.bind_eq_some_iff.mp h
    rcases ih hrest with hx | hx
    · cases Shape.moves_of_step hmid with
      | write =>
        rcases List.mem_cons.mp hx with rfl | hx
        · exact .inr (by simp [writes])
        · exact .inl hx
      | _ => exact .inl hx
    · refine .inr ?_
      cases i <;> simp_all [writes]

variable {i : Instr}

private theorem exists_step (h : Shape.run stack {} ops = some shape) (hi : i ∈ ops) :
    ∃ shape₁ shape₂, Shape.step stack shape₁ i = some shape₂ ∧
      ∀ x ∈ shape₁.written, x ∈ writes ops := by
  obtain ⟨front, back, rfl⟩ := List.append_of_mem hi
  rw [Shape.run, List.foldlM_append] at h
  obtain ⟨shape₁, hfront, hrest⟩ := Option.bind_eq_some_iff.mp h
  obtain ⟨shape₂, hstep, -⟩ := Option.bind_eq_some_iff.mp hrest
  refine ⟨shape₁, shape₂, hstep, fun x hx => ?_⟩
  rcases written_of_run hfront hx with hx | hx
  · cases hx
  · rw [writes, List.filterMap_append]
    exact List.mem_append_left _ hx

/-- Whether an instruction is an opcode, data or a write. -/
def IsCode : Instr → Prop
  | .op _ | .push _ | .assign _ => True
  | _ => False

/-- What a structured program consists of. -/
theorem instr_cases (h : Shape.run stack {} ops = some shape) (hi : i ∈ ops) :
    Steady i ∧ (IsCode i ∨ ∃ x, IsRead i x) := by
  obtain ⟨shape₁, shape₂, hstep, -⟩ := exists_step h hi
  cases Shape.moves_of_step hstep with
  | @plain o _ _ hreach => exact ⟨by cases o <;> trivial, .inl trivial⟩
  | opens ho => exact ⟨by rcases ho with rfl | rfl <;> trivial, .inl trivial⟩
  | read hi => exact ⟨by rcases hi with rfl | rfl <;> trivial, .inr ⟨_, hi⟩⟩
  | _ => exact ⟨trivial, .inl trivial⟩

/-- What a structured program reads is known. -/
theorem known_of_read (h : Shape.run stack {} ops = some shape) (hi : i ∈ ops) (hx : IsRead i x) :
    x ∈ stack ++ writes ops ∧ (i = .assume x → x ∈ stack) := by
  obtain ⟨shape₁, shape₂, hstep, hwritten⟩ := exists_step h hi
  obtain ⟨-, hname, hassume⟩ := Shape.step_read hx hstep
  exact ⟨List.mem_append.mpr (hname.imp id (hwritten x)), hassume⟩

private theorem isCode_number (n : Int) : IsCode (.number n) := by
  unfold Instr.number
  cases SmallInt.ofInt? n <;> trivial

/-- Code that is resolved from the left has no reads. -/
theorem Resolves.isCode (h : Resolves stack ops done code hidden shape rest) (hi : i ∈ code) :
    IsCode i := by
  induction h with
  | start => cases hi
  | step _ hseg _ ih =>
    rcases List.mem_append.mp hi with hi | hi
    · exact ih hi
    · cases hseg with
      | op | push | write =>
        cases List.mem_singleton.mp hi
        trivial
      | copy | move =>
        rcases List.mem_cons.mp hi with rfl | hi
        · exact isCode_number _
        · cases List.mem_singleton.mp hi
          trivial
      | elide => cases hi

private theorem Thins.mem {K : Name → Prop} (h : Thins K code th) (hi : i ∈ th) : i ∈ code := by
  induction h with
  | nil => exact hi
  | keep j _ ih =>
    rcases List.mem_cons.mp hi with rfl | hi
    · exact List.mem_cons_self
    · exact List.mem_cons_of_mem _ (ih hi)
  | drop _ _ ih => exact List.mem_cons_of_mem _ (ih hi)

namespace Progress

variable {o : Options}

/-- What is resolved is code. -/
theorem isCode (h : Progress p s code th rest hidden shape) (hi : i ∈ th) : IsCode i := by
  obtain ⟨done, hres⟩ := h.resolves
  exact hres.isCode (h.thins.mem hi)

/-- What is left stands in the program. -/
theorem mem_ops (h : Progress p s code th rest hidden shape) (hi : i ∈ rest) : i ∈ p.ops := by
  obtain ⟨done, hres⟩ := h.resolves
  rw [← hres.append_eq]
  exact List.mem_append_right _ hi

variable (hp : Structured p)

include hp

section

variable (h : Progress p s code th rest hidden shape)

include h

/-- What is known at the end of the program. -/
theorem exists_final :
    ∃ final, Shape.run p.stack {} p.ops = some final ∧ Shape.run p.stack shape rest = some final ∧
      final.arms = [] := by
  obtain ⟨final, hfinal, harms⟩ := Option.map_eq_some_iff.mp hp.shaped
  obtain ⟨done, hres⟩ := h.resolves
  refine ⟨final, hfinal, ?_, harms⟩
  have hsplit := hfinal
  rw [← hres.append_eq, Shape.run, List.foldlM_append] at hsplit
  obtain ⟨mid, hmid, hrest⟩ := Option.bind_eq_some_iff.mp hsplit
  cases hmid.symm.trans hres.shape_eq
  exact hrest

/-- The empty name is not read. -/
theorem not_readIn_nil : ¬ ReadIn rest [] := by
  rintro ⟨i, hi, hread⟩
  obtain ⟨final, hfinal, -⟩ := h.exists_final hp
  exact hp.named [] (known_of_read hfinal (h.mem_ops hi) hread).1 rfl

private theorem exists_heights :
    ∃ hs, Heights.run { now := p.stack.length } s.steps = some hs ∧ hs.levels = [] := by
  obtain ⟨done, hres⟩ := h.resolves
  obtain ⟨final, -, hrest, harms⟩ := h.exists_final hp
  obtain ⟨h₁, hrun₁, ha₁⟩ := hres.above h.thins
  obtain ⟨h₂, count, hrun₂, ha₂⟩ := ha₁.run hrest
  refine ⟨h₂, ?_, by rw [ha₂.levels, harms]; rfl⟩
  rw [heights_eq_of_faithful h.faithful, h.instrs, Step.ofList, List.map_append, Heights.run_append]
  exact Option.bind_eq_some_iff.mpr ⟨h₁, hrun₁, hrun₂⟩

/-- What is read from the initial stack is declared there. -/
theorem mem_stack : ∀ st ∈ s.steps, ∀ name, st.instr = .assume name → name ∈ p.stack := by
  intro st hst name hname
  obtain ⟨final, hfinal, -⟩ := h.exists_final hp
  have hmem : st.instr ∈ th ++ rest := by
    rw [← h.instrs]
    exact List.mem_map_of_mem hst
  rcases List.mem_append.mp hmem with hmem | hmem
  · have := h.isCode hmem
    rw [hname] at this
    exact this.elim
  · exact (known_of_read hfinal (h.mem_ops hmem) (.inl hname)).2 hname

end

/-- The session's program has a context. -/
theorem exists_context (ho : o.allowInvalidComparisons = true)
    (h : Progress p s code th rest hidden shape) :
    ∃ ctx s', (Session.currentContext o).run s = .ok ctx s' ∧ Views p.stack ctx ∧
      ctx.steps = s'.steps ∧ Progress p s' code th rest hidden shape := by
  obtain ⟨hs, hrun, hlevels⟩ := h.exists_heights hp
  have hknows := h.knows.bindAssigned s.steps
  obtain ⟨ctx, hctx, hv, hinstrs⟩ :=
    Named.exists_context hknows ho h.faithful (h.mem_stack hp) hrun hlevels
  refine ⟨ctx, _, Session.run_currentContext hctx, hv, rfl, hinstrs.trans h.instrs, hv.faithful, ?_,
    h.slots, h.resolves, h.thins⟩
  exact (hknows.recordAssigned _).mono fun x hx => List.mem_append_right _ hx

/-- The part in front of the first read is resolved. -/
theorem exists_read (h : Progress p s code th rest hidden shape) :
    ∃ code' th' rest' hidden' shape', Progress p s code' th' rest' hidden' shape' ∧
      (rest' = [] ∨ ∃ i name tail, rest' = i :: tail ∧ IsRead i name) := by
  induction rest generalizing code th hidden shape with
  | nil => exact ⟨code, th, [], hidden, shape, h, .inl rfl⟩
  | cons i rest ih =>
    obtain ⟨final, hfinal, hrest, -⟩ := h.exists_final hp
    obtain ⟨mid, hmid, -⟩ := Option.bind_eq_some_iff.mp hrest
    by_cases hread : ∃ name, IsRead i name
    · obtain ⟨name, hread⟩ := hread
      exact ⟨code, th, i :: rest, hidden, shape, h, .inr ⟨i, name, rest, rfl, hread⟩⟩
    · have hcode := (instr_cases hfinal (h.mem_ops List.mem_cons_self)).2.resolve_right hread
      obtain ⟨hidden', hseg⟩ : ∃ hidden', Segment shape hidden rest [i] [i] hidden' := by
        cases i with
        | op o => exact ⟨_, .op o⟩
        | push data => exact ⟨_, .push data⟩
        | assign name => exact ⟨_, .write name⟩
        | _ => exact hcode.elim
      obtain ⟨done, hres⟩ := h.resolves
      have hres' : Resolves p.stack p.ops done code hidden shape ([i] ++ rest) := hres
      have hnext : Progress p s (code ++ [i]) (th ++ [i]) rest hidden' mid := by
        refine ⟨by rw [h.instrs]; simp, h.faithful, h.knows, h.slots, ⟨done ++ [i], ?_⟩, ?_⟩
        · exact hres'.step hseg (by rw [Shape.run_singleton]; exact hmid)
        · refine (h.thins.mono ?_).append (.refl [i])
          rintro x ⟨j, hj, hx⟩
          exact ⟨j, List.mem_cons_of_mem _ hj, hx⟩
      exact ih hnext

end Progress

/-! ### The first replacement -/

section

variable {inner : InnerResult} {ctx : Context}

variable {st : Step} {back : List Step}

private theorem run_firstReplacement_none {i : Nat}
    (h : (Session.visit inner ctx i st).run s = .ok none s) (steps : List Step) :
    (Session.firstReplacement inner ctx i (st :: steps)).run s =
      (Session.firstReplacement inner ctx (i + 1) steps).run s := by
  rw [Session.firstReplacement, Session.run_bind_ok h]

/-- The first step has a replacement. -/
theorem run_firstReplacement_some {i : Nat} {steps : List Step} {r : Session.Replacement}
    (h : (Session.visit inner ctx i st).run s = .ok (some r) s) :
    (Session.firstReplacement inner ctx i (st :: steps)).run s = .ok (some (i, r)) s := by
  rw [Session.firstReplacement, Session.run_bind_ok h]
  rfl

private theorem not_isRead_of_isCode (hi : IsCode i) (name : Name) : ¬ IsRead i name := by
  rintro (rfl | rfl) <;> exact hi

variable {front l : List Step} {m : Machine}

private theorem run_visit_write (inner : InnerResult) (hv : Views stack ctx) (hslots : s.slots = [])
    {name : Name} (hst : st.instr = .assign name) (hsteps : ctx.steps = front ++ st :: (l ++ back))
    (hl : ∀ st ∈ l, IsCode st.instr) (hm : (Machine.start ctx.stack).run front = .ok m) :
    ReadIn (Step.instrs back) name ∧
        (Session.visit inner ctx front.length st).run s = .ok none s ∨
      ¬ ReadIn (Step.instrs back) name ∧
        (Session.visit inner ctx front.length st).run s = .ok (some ([], 1)) s := by
  have htake : ctx.steps.take front.length = front := by rw [hsteps, List.take_left]
  have hdrop : (Step.instrs ctx.steps).drop (front.length + 1) =
      Step.instrs l ++ Step.instrs back := by
    rw [hsteps, Step.instrs, ← List.map_drop]
    simp [Step.instrs]
  have hread : (ctx.reads.countAfter name front.length = 0 ∧
      ctx.assumptions.countAfter name front.length = 0) ↔ ¬ ReadIn (Step.instrs back) name := by
    rw [hv.not_read_iff, hdrop]
    constructor
    · rintro hnone ⟨i, hi, hread⟩
      exact hnone i (List.mem_append_right _ hi) hread
    · intro hnone i hi hread
      rcases List.mem_append.mp hi with hi | hi
      · obtain ⟨st, hst, rfl⟩ := List.mem_map.mp hi
        exact not_isRead_of_isCode (hl st hst) name hread
      · exact hnone ⟨i, hi, hread⟩
  have hwrite := Session.run_writeName hslots (i := front.length) (by rw [htake]; exact hm) name
  rw [Session.visit, hst]
  by_cases hback : ReadIn (Step.instrs back) name
  · refine .inl ⟨hback, hwrite.trans ?_⟩
    rw [if_neg (fun h => hread.mp h hback)]
  · refine .inr ⟨hback, hwrite.trans ?_⟩
    rw [if_pos (hread.mpr hback)]

/-- What comes of looking for a replacement in code: a write of a name that is not read in the part
that is left, or nothing if there is none. -/
def Scanned (inner : InnerResult) (ctx : Context) (s : Session) (front l back : List Step) :
    Prop :=
  (∃ l₁ st l₂ name, l = l₁ ++ st :: l₂ ∧ st.instr = .assign name ∧
      ¬ ReadIn (Step.instrs back) name ∧
      (Session.firstReplacement inner ctx front.length (l ++ back)).run s =
        .ok (some ((front ++ l₁).length, [], 1)) s) ∨
    (∀ st ∈ l, ∀ name, st.instr = .assign name → ReadIn (Step.instrs back) name) ∧
      (Session.firstReplacement inner ctx front.length (l ++ back)).run s =
        (Session.firstReplacement inner ctx (front ++ l).length back).run s

private theorem Scanned.cons (h : Scanned inner ctx s (front ++ [st]) l back)
    (hst : ∀ name, st.instr = .assign name → ReadIn (Step.instrs back) name)
    (hvisit : (Session.visit inner ctx front.length st).run s = .ok none s) :
    Scanned inner ctx s front (st :: l) back := by
  have hnone := run_firstReplacement_none hvisit (l ++ back)
  rw [Scanned, List.length_append, List.length_singleton] at h
  rcases h with ⟨l₁, st', l₂, name, rfl, hassign, hread, hrun⟩ | ⟨hreads, hrun⟩
  · refine .inl ⟨st :: l₁, st', l₂, name, rfl, hassign, hread, hnone.trans (hrun.trans ?_)⟩
    simp
  · refine .inr ⟨fun st' hst' name hname => ?_, hnone.trans (hrun.trans ?_)⟩
    · rcases List.mem_cons.mp hst' with rfl | hst'
      · exact hst name hname
      · exact hreads st' hst' name hname
    · simp

/-- What is found in code that the machine runs through. -/
theorem scanned_code (inner : InnerResult) (hv : Views stack ctx) (hslots : s.slots = [])
    (front l : List Step) (hl : ∀ st ∈ l, IsCode st.instr)
    (hsteps : ctx.steps = front ++ (l ++ back))
    (hm : (Machine.start ctx.stack).run (front ++ l) = .ok m) :
    Scanned inner ctx s front l back := by
  induction l generalizing front with
  | nil => exact .inr ⟨nofun, by rw [List.append_nil]; rfl⟩
  | cons st l ih =>
    have hl' : ∀ st ∈ l, IsCode st.instr := fun st hst => hl st (List.mem_cons_of_mem _ hst)
    obtain ⟨m₁, hm₁⟩ : ∃ m₁, (Machine.start ctx.stack).run front = .ok m₁ := by
      rw [Machine.run, List.foldlM_append] at hm
      obtain ⟨m₁, hm₁, -⟩ := Engine.bind_eq_ok_iff.mp hm
      exact ⟨m₁, hm₁⟩
    have hrest := ih (front ++ [st]) hl' (by rw [hsteps]; simp) (by rw [← hm]; simp)
    cases hi : st.instr with
    | op o =>
      exact hrest.cons (fun name h => by rw [hi] at h; cases h) (by rw [Session.visit, hi]; rfl)
    | push d =>
      exact hrest.cons (fun name h => by rw [hi] at h; cases h) (by rw [Session.visit, hi]; rfl)
    | assign name =>
      rcases run_visit_write inner hv hslots hi hsteps hl' hm₁ with
        ⟨hread, hvisit⟩ | ⟨hread, hvisit⟩
      · exact hrest.cons (fun x h => by rw [hi] at h; cases h; exact hread) hvisit
      · refine .inl ⟨[], st, l, name, rfl, hi, hread, ?_⟩
        rw [List.append_nil]
        exact run_firstReplacement_some hvisit
    | _ =>
      have := hl st List.mem_cons_self
      rw [hi] at this
      exact this.elim

end

end NamedStack.Named
