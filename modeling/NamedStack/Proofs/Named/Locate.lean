import NamedStack.Proofs.Named.Labels

/-!
# Locating names

Code that is resolved from the left keeps a hidden item for every name that is still to be read, and
its stack stays so low that positions on it can be written as numbers. The machine, run over the
code or over what is left of it without writes of names that are not read any more, locates the
items.
-/

namespace NamedStack.Named

variable {stack : List Name} {shape shape' : Shape} {hidden hidden' : Hidden}
  {ops done code seg new rest : List Instr}

/-! ### What is resolved -/

/-- The part that is resolved and the part that is left are the program. -/
theorem Resolves.append_eq (h : Resolves stack ops done code hidden shape rest) :
    done ++ rest = ops := by
  induction h with
  | start => rfl
  | step _ _ _ ih => rw [List.append_assoc, ih]

/-- What is known behind the part that is resolved. -/
theorem Resolves.shape_eq (h : Resolves stack ops done code hidden shape rest) :
    Shape.run stack {} done = some shape := by
  induction h with
  | start => rfl
  | step _ _ hshape ih =>
    rw [Shape.run, List.foldlM_append]
    exact Option.bind_eq_some_iff.mpr ⟨_, ih, hshape⟩

/-! ### Heights -/

/-- Whether the stack is not higher than a number, with so many hidden items, now and at the starts
of the open conditionals. -/
def Shape.Within (shape : Shape) (count bound : Nat) : Prop :=
  shape.height + count ≤ bound ∧ ∀ a ∈ shape.arms, a.entry + count ≤ bound

private theorem delta_le (o : Opcode) : o.info.delta ≤ 3 :=
  Opcode.forall_of_all (P := fun o => o.info.delta ≤ 3) (by decide +kernel) o

variable {bound : Nat} {x : Name}

variable {count : Nat} {i : Instr} {name : Name}

private theorem Shape.Within.mono {bound' : Nat} (h : shape.Within count bound)
    (hle : bound ≤ bound') : shape.Within count bound' :=
  ⟨h.1.trans hle, fun a ha => (h.2 a ha).trans hle⟩

private theorem Shape.Within.op {o : Opcode} (h : shape.Within count bound)
    (hshape : Shape.step stack shape (.op o) = some shape') : shape'.Within count (bound + 3) := by
  obtain ⟨hheight, harms⟩ := h
  have hkeep : ∀ a ∈ shape.arms, a.entry + count ≤ bound + 3 := fun a ha =>
    (harms a ha).trans (Nat.le_add_right _ _)
  cases Shape.moves_of_step hshape with
  | plain hmark hreach hle =>
    have := delta_le o
    exact ⟨by dsimp only; omega, hkeep⟩
  | opens ho hle =>
    refine ⟨by dsimp only; omega, fun a ha => ?_⟩
    rcases List.mem_cons.mp ha with rfl | ha
    · dsimp only
      omega
    · exact hkeep a ha
  | @splits entry arms hopen =>
    have hentry := hkeep { entry } (hopen ▸ List.mem_cons_self)
    refine ⟨hentry, fun a ha => ?_⟩
    rcases List.mem_cons.mp ha with rfl | ha
    · exact hentry
    · exact hkeep a (hopen ▸ List.mem_cons_of_mem _ ha)
  | closes hopen hend =>
    exact ⟨by dsimp only; omega, fun a ha => hkeep a (hopen ▸ List.mem_cons_of_mem _ ha)⟩
  | read hi _ => rcases hi with h | h <;> cases h

/-- A write hides one item more. -/
theorem Hidden.length_write (hidden : Hidden) (name : Name) :
    (hidden.write name).length = hidden.length + 1 := by
  simp [Hidden.write]

private theorem Segment.within (hseg : Segment shape hidden rest seg new hidden')
    (hshape : Shape.run stack shape seg = some shape') (h : shape.Within hidden.length bound) :
    shape'.Within hidden'.length (bound + 3 * seg.length) := by
  cases hseg with
  | op o =>
    rw [Shape.run_singleton] at hshape
    exact h.op hshape
  | push data =>
    rw [Shape.run_singleton] at hshape
    cases hshape
    exact ⟨by have := h.1; simp only [List.length_singleton]; omega,
      (h.mono (Nat.le_add_right _ _)).2⟩
  | write name =>
    obtain ⟨hopen, hheight, rfl⟩ := Shape.run_write hshape
    have := h.1
    exact ⟨by simp only [Hidden.length_write, List.length_singleton]; omega, nofun⟩
  | copy hi hk =>
    obtain rfl := Shape.run_read hi hshape
    exact ⟨by have := h.1; simp only [List.length_singleton]; omega,
      (h.mono (Nat.le_add_right _ _)).2⟩
  | @move i name k hi hk hopen _ =>
    obtain rfl := Shape.run_read hi hshape
    obtain ⟨hk, -⟩ := List.getElem?_eq_some_iff.mp hk
    refine ⟨?_, by simp [hopen]⟩
    have := h.1
    simp only [List.length_singleton, List.length_eraseIdx_of_lt hk]
    omega
  | @elide seg names below hreads htop hopen hheight _ =>
    obtain ⟨harms, hheight', -⟩ := Shape.run_reads hreads hshape
    refine ⟨?_, by simp [harms, hopen]⟩
    have := h.1
    rw [htop] at this
    simp only [List.length_append, List.length_map, List.length_reverse] at this
    omega

/-- The stack of code that is resolved from the left is bounded by the length of the program. -/
theorem Resolves.within (h : Resolves stack ops done code hidden shape rest) :
    shape.Within hidden.length (stack.length + 3 * done.length) := by
  induction h with
  | start => exact ⟨by simp, nofun⟩
  | step _ hseg hshape ih =>
    refine (hseg.within hshape ih).mono ?_
    simp only [List.length_append]
    omega

/-! ### Names that are still to be read -/

private theorem IsRead.ne_write (hi : IsRead i name) (x : Name) : [i] ≠ [.assign x] := by
  rcases hi with rfl | rfl <;> simp

private theorem live_read (hi : IsRead i name) (h : live x rest = true) :
    live x (i :: rest) = true := by
  rcases hi with rfl | rfl <;> simp [live, h]

/-- Reads in front keep a name live. -/
theorem live_reads {reads : List Instr} {names : List Name}
    (hreads : List.Forall₂ IsRead reads names) (h : live x rest = true) :
    live x (reads ++ rest) = true := by
  induction hreads with
  | nil => exact h
  | cons hi _ ih => exact live_read hi ih

private theorem Segment.live_append (hseg : Segment shape hidden rest seg new hidden')
    (hx : seg ≠ [.assign x]) (h : live x rest = true) : live x (seg ++ rest) = true := by
  cases hseg with
  | op | push => exact h
  | write name =>
    have hne : name ≠ x := fun he => hx (he ▸ rfl)
    simp [live, hne, h]
  | copy hi _ => exact live_read hi h
  | move hi _ _ _ => exact live_read hi h
  | elide hreads _ _ _ _ => exact live_reads hreads h

/-- Whether every name that is known and still to be read has a hidden item. -/
def Available (stack : List Name) (shape : Shape) (hidden : Hidden) (rest : List Instr) : Prop :=
  ∀ x, x ∈ stack ∨ x ∈ shape.written → live x rest = true → some x ∈ hidden

private theorem Segment.available (hseg : Segment shape hidden rest seg new hidden')
    (hshape : Shape.run stack shape seg = some shape')
    (h : Available stack shape hidden (seg ++ rest)) : Available stack shape' hidden' rest := by
  intro x hx hlive
  have hlive' := hseg.live_append (x := x)
  cases hseg with
  | op o =>
    rw [Shape.run_singleton] at hshape
    refine h x ?_ hlive
    cases Shape.moves_of_step hshape with
    | plain | opens | splits | closes => exact hx
    | read hi _ => rcases hi with h | h <;> cases h
  | push data =>
    rw [Shape.run_singleton] at hshape
    cases hshape
    exact h x hx hlive
  | write name =>
    by_cases hname : x = name
    · subst hname
      exact List.mem_cons_self
    · have hmem : some x ∈ hidden := by
        refine h x ?_ (hlive' (by simpa using fun he => hname he.symm) hlive)
        obtain ⟨-, -, rfl⟩ := Shape.run_write hshape
        simpa [hname] using hx
      refine List.mem_cons_of_mem _ (List.mem_map.mpr ⟨_, hmem, if_neg ?_⟩)
      simpa using hname
  | copy hi hk =>
    obtain rfl := Shape.run_read hi hshape
    exact h x hx (live_read hi hlive)
  | @move i name k hi hk hopen hdead =>
    obtain rfl := Shape.run_read hi hshape
    obtain ⟨j, hj⟩ := List.getElem?_of_mem (h x hx (live_read hi hlive))
    refine List.mem_eraseIdx_iff_getElem?.mpr ⟨j, fun hjk => ?_, hj⟩
    subst hjk
    cases hj.symm.trans hk
    cases hlive.symm.trans hdead
  | @elide _ names _ hreads htop hopen hheight hdead =>
    obtain ⟨-, -, hwritten, -⟩ := Shape.run_reads hreads hshape
    have hmem := h x (hwritten ▸ hx) (live_reads hreads hlive)
    rw [htop] at hmem
    rcases List.mem_append.mp hmem with hmem | hmem
    · have hname : x ∈ names := by simpa using hmem
      cases hlive.symm.trans (hdead x hname)
    · exact hmem

/-- Code that is resolved from the left keeps the items of the names that are still to be read. -/
theorem Resolves.available (h : Resolves stack ops done code hidden shape rest) :
    Available stack shape hidden rest := by
  induction h with
  | start =>
    intro x hx _
    simpa using hx
  | step _ hseg hshape ih => exact hseg.available hshape ih

/-! ### Code without some of its writes -/

/-- Code from which writes of names that are not kept were left out. -/
inductive Thins (K : Name → Prop) : List Instr → List Instr → Prop
  | nil : Thins K [] []
  | keep (i : Instr) {code th : List Instr} (h : Thins K code th) : Thins K (i :: code) (i :: th)
  | drop {name : Name} (hname : ¬ K name) {code th : List Instr} (h : Thins K code th) :
      Thins K (.assign name :: code) th

namespace Thins

variable {K : Name → Prop} {th : List Instr}

/-- Code without a change. -/
theorem refl (code : List Instr) : Thins K code code := by
  induction code with
  | nil => exact .nil
  | cons i code ih => exact .keep i ih

/-- Code, and then other code. -/
theorem append {code' th' : List Instr} (h : Thins K code th) (h' : Thins K code' th') :
    Thins K (code ++ code') (th ++ th') := by
  induction h with
  | nil => exact h'
  | keep i _ ih => exact .keep i ih
  | drop hname _ ih => exact .drop hname ih

/-- More writes may go if fewer names are kept. -/
theorem mono {K' : Name → Prop} (h : Thins K code th) (hK : ∀ x, K' x → K x) :
    Thins K' code th := by
  induction h with
  | nil => exact .nil
  | keep i _ ih => exact .keep i ih
  | drop hname _ ih => exact .drop (fun h => hname (hK _ h)) ih

/-- A write that is still there can be left out. -/
theorem drop_write {front back : List Instr} {name : Name} (hname : ¬ K name)
    (h : Thins K code (front ++ .assign name :: back)) : Thins K code (front ++ back) := by
  generalize hth : front ++ .assign name :: back = th at h
  induction h generalizing front with
  | nil => simp at hth
  | @keep i code th h ih =>
    cases front with
    | nil =>
      cases hth
      exact .drop hname h
    | cons j front =>
      cases hth
      exact .keep _ (ih rfl)
  | drop hname' _ ih => exact .drop hname' (ih hth)

/-- What is left of code is what is left of its parts. -/
theorem of_append (h : Thins K (code ++ new) th) :
    ∃ th₁ th₂, th = th₁ ++ th₂ ∧ Thins K code th₁ ∧ Thins K new th₂ := by
  induction code generalizing th with
  | nil => exact ⟨[], th, rfl, .nil, h⟩
  | cons i code ih =>
    cases h with
    | keep _ h =>
      obtain ⟨th₁, th₂, rfl, h₁, h₂⟩ := ih h
      exact ⟨i :: th₁, th₂, rfl, .keep i h₁, h₂⟩
    | drop hname h =>
      obtain ⟨th₁, th₂, rfl, h₁, h₂⟩ := ih h
      exact ⟨th₁, th₂, rfl, .drop hname h₁, h₂⟩

/-- Without writes none is left out. -/
theorem eq_of_noWrites (h : Thins K code th) (hcode : ∀ name, .assign name ∉ code) :
    th = code := by
  induction h with
  | nil => rfl
  | keep i _ ih => rw [ih fun name hn => hcode name (List.mem_cons_of_mem _ hn)]
  | drop _ _ _ => exact absurd List.mem_cons_self (hcode _)

end Thins

/-! ### The machine over code that is resolved -/

private theorem tracks_start (P : Name → Prop) (stack : List Name) :
    Tracks P (stack.reverse.map some) {} (Machine.start stack).main (Machine.start stack) := by
  refine ⟨?_, ⟨[], rfl, rfl, nofun⟩, .nil, nofun⟩
  change Marks P (stack.reverse.map some) (stack.map fun n => ({ name := n } : Item)).reverse
  rw [← List.map_reverse]
  refine List.forall₂_map_left_iff.mpr (List.forall₂_map_right_iff.mpr (List.forall₂_same.mpr ?_))
  intro name _ x _
  simp

private theorem run_append (m : Machine) (a b : List Step) :
    m.run (a ++ b) = (m.run a).bind fun m' => m'.run b :=
  List.foldlM_append

private theorem run_singleton (m : Machine) (s : Step) : m.run [s] = m.step s := by
  change (m.step s).bind .ok = _
  cases m.step s <;> rfl

/-- Integers are no writes. -/
theorem number_ne_assign (n : Int) (name : Name) : Instr.number n ≠ .assign name := by
  unfold Instr.number
  cases SmallInt.ofInt? n <;> nofun

private theorem Segment.tracks {K : Name → Prop} (hK : ¬ K []) {th : List Instr} {m : Machine}
    {below : List Item} (hseg : Segment shape hidden rest seg new hidden')
    (hshape : Shape.run stack shape seg = some shape') (hth : Thins K new th)
    (hbound : shape.height + hidden.length < 2 ^ 31)
    (h : Tracks (fun x => K x ∧ live x (seg ++ rest) = true) hidden shape below m) :
    ∃ m' below', m.run (Step.ofList th) = .ok m' ∧
      Tracks (fun x => K x ∧ live x rest = true) hidden' shape' below' m' := by
  have hfewer (x : Name) (hne : seg ≠ [.assign x]) (hx : K x ∧ live x rest = true) :
      K x ∧ live x (seg ++ rest) = true := ⟨hx.1, hseg.live_append hne hx.2⟩
  have hempty : ¬ (K [] ∧ live [] (seg ++ rest) = true) := fun h => hK h.1
  cases hseg with
  | op o =>
    rw [Shape.run_singleton] at hshape
    obtain rfl := hth.eq_of_noWrites (by simp)
    obtain ⟨m', hm', h'⟩ := h.op hempty hshape
    exact ⟨m', below, (run_singleton _ _).trans hm', h'⟩
  | push data =>
    rw [Shape.run_singleton] at hshape
    cases hshape
    obtain rfl := hth.eq_of_noWrites (by simp)
    obtain ⟨m', hm', h'⟩ := h.push hempty data
    exact ⟨m', below, (run_singleton _ _).trans hm', h'⟩
  | write name =>
    have hQP (x : Name) (hx : K x ∧ live x rest = true) (hne : x ≠ name) :=
      hfewer x (by simpa using fun he => hne he.symm) hx
    obtain ⟨hopen, hheight, rfl⟩ := Shape.run_write hshape
    cases hth with
    | keep _ hth =>
      cases hth
      obtain ⟨m', below', hm', h'⟩ := h.write hopen hheight (fun h => hK h.1) hQP
        (name :: shape.written)
      exact ⟨m', below', (run_singleton _ _).trans hm', h'⟩
    | drop hname hth =>
      cases hth
      obtain ⟨below', h'⟩ := h.skip_write hopen hheight hQP (fun h => hname h.1)
        (name :: shape.written)
      exact ⟨m, below', rfl, h'⟩
  | @copy i name k hi hk =>
    obtain rfl := Shape.run_read hi hshape
    obtain ⟨hk, -⟩ := List.getElem?_eq_some_iff.mp hk
    obtain rfl := hth.eq_of_noWrites (by simp [(number_ne_assign _ _).symm])
    obtain ⟨m', hm', h'⟩ := h.copy hempty hk (by omega)
    exact ⟨m', below, hm', h'.mono fun x hx => hfewer x (hi.ne_write x) hx⟩
  | @move i name k hi hk hopen hdead =>
    obtain rfl := Shape.run_read hi hshape
    obtain rfl := hth.eq_of_noWrites (by simp [(number_ne_assign _ _).symm])
    have hlt := (List.getElem?_eq_some_iff.mp hk).1
    obtain ⟨m', hm', h'⟩ := h.move hk hopen (by omega) (fun x hx => hfewer x (hi.ne_write x) hx)
      (fun h => by rw [hdead] at h; cases h.2)
    exact ⟨m', _, hm', h'⟩
  | @elide _ names _ hreads htop hopen hheight hdead =>
    cases hth
    obtain ⟨harms, hheight', -, hlit⟩ := Shape.run_reads hreads hshape
    have hne (x : Name) : seg ≠ [.assign x] := by
      rintro rfl
      obtain ⟨_, _, hi, _, _⟩ := List.forall₂_cons_left_iff.mp hreads
      exact hi.ne_write x rfl
    obtain ⟨below', h'⟩ := h.elide htop hopen hheight (fun x hx => hfewer x (hne x) hx)
      (fun name hname h => by rw [hdead name hname] at h; cases h.2) harms hheight' hlit
    exact ⟨m, below', rfl, h'⟩

/-- The labels of the machine are right after code that is resolved from the left. -/
theorem Resolves.tracks {K : Name → Prop} (hK : ¬ K []) {th : List Instr}
    (h : Resolves stack ops done code hidden shape rest) (hth : Thins K code th)
    (hbound : stack.length + 3 * ops.length < 2 ^ 31) :
    ∃ m below, (Machine.start stack).run (Step.ofList th) = .ok m ∧
      Tracks (fun x => K x ∧ live x rest = true) hidden shape below m := by
  induction h generalizing th with
  | start =>
    cases hth
    exact ⟨_, _, rfl, tracks_start _ _⟩
  | @step done code seg new rest hidden hidden' shape shape' h hseg hshape ih =>
    obtain ⟨th₁, th₂, rfl, hth₁, hth₂⟩ := hth.of_append
    obtain ⟨m, below, hm, htracks⟩ := ih hth₁
    have hlen : done.length ≤ ops.length := by
      rw [← h.append_eq, List.length_append]
      omega
    have hwithin := h.within.1
    obtain ⟨m', below', hm', htracks'⟩ := hseg.tracks hK hshape hth₂ (by omega) htracks
    refine ⟨m', below', ?_, htracks'⟩
    rw [Step.ofList, List.map_append, run_append]
    exact (congrArg (Except.bind · _) hm).trans hm'

/-! ### Positions -/

namespace Tracks

variable {P : Name → Prop} {below : List Item} {m : Machine}

/-- The height counts expressions and hidden items. -/
theorem height_eq (h : Tracks P hidden shape below m) :
    m.height = shape.height + hidden.length := by
  obtain ⟨top, hmain, hlen, -⟩ := h.main
  rw [Machine.height, hmain, List.length_append, hlen, h.marks.length_eq]

/-- The machine locates the hidden item of a name that matters. -/
theorem locate (h : Tracks P hidden shape below m) (hx : P x) (hmem : some x ∈ hidden) :
    ∃ k, hidden[k]? = some (some x) ∧ m.locate? x = some (m.height - 1 - (shape.height + k)) := by
  obtain ⟨top, hmain, hlen, hclean⟩ := h.main
  have htop : top.findIdx? (fun i => i.name = x && !i.copy) = none := by
    refine List.findIdx?_eq_none_iff.mpr fun i hi => ?_
    by_cases hname : i.name = x
    · simp [hname, hclean i hi (hname ▸ hx)]
    · simp [hname]
  obtain ⟨k, hk⟩ : ∃ k, below.findIdx? (fun i => i.name = x && !i.copy) = some k := by
    rw [← Option.isSome_iff_exists, List.findIdx?_isSome, List.any_eq_true]
    obtain ⟨j, hj, hget⟩ := List.getElem_of_mem hmem
    have hj' : j < below.length := h.marks.length_eq ▸ hj
    have hitem := (h.marks.get hj hj' x hx).mpr hget
    exact ⟨_, List.getElem_mem hj', by simpa using hitem⟩
  obtain ⟨hlt, hitem, -⟩ := List.findIdx?_eq_some_iff_getElem.mp hk
  have hlt' : k < hidden.length := h.marks.length_eq.symm ▸ hlt
  refine ⟨k, ?_, ?_⟩
  · rw [List.getElem?_eq_getElem hlt']
    exact congrArg some ((h.marks.get hlt' hlt x hx).mp (by simpa using hitem))
  · rw [Machine.locate?, Machine.highest?, hmain, List.findIdx?_append, htop, hk, hlen]
    simp [Nat.add_comm]

end Tracks

end NamedStack.Named
