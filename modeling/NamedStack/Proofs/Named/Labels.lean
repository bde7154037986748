import NamedStack.Proofs.Named.Tracking

/-!
# Labels along a structured program

Each instruction of code that is resolved from the left keeps the labels right for the names that
are still to be read. Writes of names that are not read any more may be left out of the code.
-/

namespace NamedStack.Named

variable {P Q : Name → Prop} {hidden : Hidden} {shape shape' : Shape} {below : List Item}
  {m : Machine}

/-! ### Steps -/

private theorem Covers.merge {n : Nat} {first second : List Item} (hP : ¬ P [])
    (h : Covers P below n first) (k : Covers P below n second) :
    Covers P below n (Machine.merge first second) := by
  obtain ⟨top, rfl, hlen, hclean⟩ := h
  obtain ⟨top', rfl, hlen', -⟩ := k
  have hsame :
      List.zipWith (fun a b : Item => if a = b then a else .anonymous) below below = below := by
    rw [List.zipWith_self]
    simp
  refine ⟨List.zipWith (fun a b => if a = b then a else .anonymous) top top', ?_, ?_, ?_⟩
  · rw [Machine.merge, if_pos (by simp [hlen, hlen']), List.zipWith_append (by rw [hlen, hlen']),
      hsame]
  · simp [hlen, hlen']
  · intro i hi hp
    obtain ⟨k, hk, rfl⟩ := List.getElem_of_mem hi
    rw [List.getElem_zipWith] at hp ⊢
    split at hp
    · next he =>
      rw [if_pos he]
      exact hclean _ (List.getElem_mem _) hp
    · exact absurd hp hP

namespace Tracks

variable {stack : List Name}

variable {i : Item} {o : Opcode} {k : Nat} {name : Name}

private theorem peek_zero {top : List Item} (hmain : m.main = top) (hi : top.head? = some i) :
    m.peek 0 = i := by
  rw [Machine.peek, hmain, ← List.head?_eq_getElem?, hi]
  rfl

section

variable (h : Tracks P hidden shape below m)

include h

private theorem plain (hP : ¬ P []) {r : Nat}
    (hmark : o.isMarker = false) (hreach : reach shape.literal o = some r)
    (hle : r ≤ shape.height) : ∃ m', m.runOp (.op o) o = .ok m' ∧
      Tracks P hidden
        { shape with height := (shape.height + o.info.delta).toNat, literal := o.smallInt? }
          below m' := by
  obtain ⟨top, hmain, hlen, hclean⟩ := h.main
  obtain ⟨out, hrun⟩ := runsOn_of_reach hreach hmark (hlen.symm ▸ hle) fun n hn i hi => by
    rw [← h.literal n hn, peek_zero hmain (by rw [List.head?_append, hi]; rfl)]
  refine ⟨_, hrun.run m below hmain, h.marks, ⟨out, rfl, ?_, hclean.derived hP hrun.derived⟩,
    h.frames, fun n hn => ?_⟩
  · have := hrun.length
    dsimp only
    omega
  · obtain ⟨i, hi, hnum⟩ := hrun.literal n hn
    rw [peek_zero rfl (by rw [List.head?_append, hi]; rfl), hnum]

private theorem opens (hle : 1 ≤ shape.height) :
    Tracks P hidden
      { shape with
        height := shape.height - 1, arms := { entry := shape.height - 1 } :: shape.arms
        literal := none } below
      { m.drop 1 with
        frames := { entry := (m.drop 1).main, alt := (m.drop 1).alt } :: m.frames } := by
  obtain ⟨top, hmain, hlen, hclean⟩ := h.main
  have hcovers : Covers P below (shape.height - 1) (m.drop 1).main := by
    refine ⟨top.drop 1, ?_, by rw [List.length_drop, hlen],
      fun i hi => hclean i (List.mem_of_mem_drop hi)⟩
    rw [Machine.drop, hmain, List.drop_append_of_le_length (by omega)]
  refine ⟨h.marks, hcovers, .cons (.first hcovers) h.frames, ?_⟩
  intro n hn
  cases hn

private theorem splits {entry : Nat} {arms : List (Level Nat)}
    (harms : shape.arms = { entry } :: arms) (s : Step) :
    ∃ m', m.runOp s .opElse = .ok m' ∧
      Tracks P hidden
        { shape with
          height := entry, arms := { entry, arm := some shape.height } :: arms, literal := none }
        below m' := by
  have hframes := h.frames
  rw [harms] at hframes
  obtain ⟨f, fs, hf, hfs, hm⟩ := List.forall₂_cons_left_iff.mp hframes
  cases hf with
  | @first _ l alt hentry =>
    refine ⟨{ m with main := l, alt, frames := { entry := l, alt, arm := some m.main } :: fs }, ?_,
      h.marks, hentry, .cons (.second hentry h.main) hfs, nofun⟩
    simp only [Machine.runOp, hm]

private theorem closes (hP : ¬ P []) {a : Level Nat} {arms : List (Level Nat)}
    (harms : shape.arms = a :: arms) (hend : shape.height = a.arm.getD a.entry) (s : Step) :
    ∃ m', m.runOp s .opEndIf = .ok m' ∧
      Tracks P hidden { shape with arms, literal := none } below m' := by
  have hframes := h.frames
  rw [harms] at hframes
  obtain ⟨f, fs, hf, hfs, hm⟩ := List.forall₂_cons_left_iff.mp hframes
  have hmain := h.main
  cases hf with
  | @first _ l _ hentry =>
    refine ⟨{ m with main := Machine.merge m.main l, frames := fs },
      by simp only [Machine.runOp, hm], h.marks, ?_, hfs, nofun⟩
    exact hmain.merge hP (hend ▸ hentry)
  | @second _ _ _ _ l _ harm =>
    refine ⟨{ m with main := Machine.merge l m.main, frames := fs },
      by simp only [Machine.runOp, hm], h.marks, ?_, hfs, nofun⟩
    exact Covers.merge hP (hend ▸ harm) hmain

/-- The machine goes with an opcode. -/
theorem op (hP : ¬ P []) (hshape : Shape.step stack shape (.op o) = some shape') :
    ∃ m', m.step (.of (.op o)) = .ok m' ∧ Tracks P hidden shape' below m' := by
  cases Shape.moves_of_step hshape with
  | plain hmark hreach hle => exact h.plain hP hmark hreach hle
  | opens ho hle => rcases ho with rfl | rfl <;> exact ⟨_, rfl, h.opens hle⟩
  | splits harms => exact h.splits harms (.op .opElse)
  | closes harms hend => exact h.closes hP harms hend (.op .opEndIf)
  | read hi _ => rcases hi with h | h <;> cases h

private theorem pushed (hP : ¬ P []) {l : Option Int} (hi : i.name = [])
    (hl : ∀ n, l = some n → i.num = some n) :
    Tracks P hidden { shape with height := shape.height + 1, literal := l } below (m.push [i]) := by
  obtain ⟨top, hmain, hlen, hclean⟩ := h.main
  refine ⟨h.marks, ⟨i :: top, ?_, by rw [List.length_cons, hlen], fun j hj hp => ?_⟩, h.frames, hl⟩
  · rw [Machine.push, hmain]
    rfl
  · rcases List.mem_cons.mp hj with rfl | hj
    · exact absurd (hi ▸ hp) hP
    · exact hclean j hj hp

/-- The machine goes with pushed data. -/
theorem push (hP : ¬ P []) (data : Bytes) :
    ∃ m', m.step (.of (.push data)) = .ok m' ∧
      Tracks P hidden { shape with height := shape.height + 1, literal := ScriptNum.read? data }
        below
        m' := by
  refine ⟨_, rfl, h.pushed hP ?_ fun n hn => ?_⟩
  · cases ScriptNum.read? data <;> rfl
  · simp only [hn]
    rfl

end

/-! ### Reads -/

private theorem step_number (m : Machine) {n : Int} (hn : n.natAbs < 2 ^ 31) :
    m.step (.of (.number n)) = .ok (m.push [.number n]) := by
  unfold Instr.number
  cases hs : SmallInt.ofInt? n with
  | none => simp only [Machine.step, Step.of, ScriptNum.read?_ofInt n hn]
  | some k =>
    have hval : k.val = n := by
      unfold SmallInt.ofInt? at hs
      split at hs <;> cases hs
      rfl
    simp only [Machine.step, Step.of, Machine.runOp, hval]

private theorem run_number {n : Nat} (hn : n < 2 ^ 31) {f : Nat → Machine}
    (hrun : ∀ s, Machine.runOp (m.push [.number n]) s o =
      if (n : Int) < 0 then .error m else .ok (f (n : Int).toNat)) :
    m.run (Step.ofList [.number n, .op o]) = .ok (f n) := by
  change (m.step (.of (.number n))).bind (fun m' => (m'.step (.of (.op o))).bind .ok) = _
  rw [step_number m (by omega)]
  refine (congrArg (Except.bind · .ok) (hrun _)).trans ?_
  rw [if_neg (by omega), Int.toNat_natCast]
  rfl

private theorem peek_hidden (h : Tracks P hidden shape below m) (hk : k < below.length) :
    m.peek (shape.height + k) = below[k] := by
  obtain ⟨top, hmain, hlen, -⟩ := h.main
  rw [Machine.peek, hmain, List.getElem?_append_right (by omega), hlen, Nat.add_sub_cancel_left,
    List.getElem?_eq_getElem hk]
  rfl

/-- A hidden item is copied. -/
theorem copy (h : Tracks P hidden shape below m) (hP : ¬ P []) (hk : k < hidden.length)
    (hn : shape.height + k < 2 ^ 31) :
    ∃ m', m.run (Step.ofList [.number (shape.height + k : Nat), .op .pick]) = .ok m' ∧
      Tracks P hidden { shape with height := shape.height + 1, literal := none } below m' := by
  have hb : k < below.length := h.marks.length_eq ▸ hk
  obtain ⟨top, hmain, hlen, hclean⟩ := h.main
  refine ⟨_, run_number (f := fun n => m.pushCopies [n]) hn fun s => rfl, h.marks, ?_,
    h.frames, nofun⟩
  refine ⟨below[k].duplicate :: top, ?_, by rw [List.length_cons, hlen], fun i hi hp => ?_⟩
  · change (m.peek (shape.height + k)).duplicate :: m.main = _
    rw [h.peek_hidden hb, hmain]
    rfl
  · rcases List.mem_cons.mp hi with rfl | hi
    · exact Clean.duplicate hP hp
    · exact hclean i hi hp

private theorem frames_eq_nil (h : Tracks P hidden shape below m) (hopen : shape.arms = []) :
    m.frames = [] := by
  have hframes := h.frames
  rw [hopen] at hframes
  exact List.forall₂_nil_left_iff.mp hframes

private theorem copy_of_marks {o : Option Name}
    (hmark : ∀ x, P x → (i.name = x ∧ i.copy = false ↔ o = some x)) (hQP : ∀ x, Q x → P x)
    (hdead : ∀ x, o = some x → ¬ Q x) (hi : Q i.name) : i.copy = true := by
  by_contra hcopy
  exact hdead _ ((hmark _ (hQP _ hi)).mp ⟨rfl, Bool.eq_false_of_not_eq_true hcopy⟩) hi

/-- A hidden item whose name does not matter any more is moved. -/
theorem move (h : Tracks P hidden shape below m) (hk : hidden[k]? = some (some name))
    (hopen : shape.arms = []) (hn : shape.height + k < 2 ^ 31) (hQP : ∀ x, Q x → P x)
    (hdead : ¬ Q name) :
    ∃ m', m.run (Step.ofList [.number (shape.height + k : Nat), .op .roll]) = .ok m' ∧
      Tracks Q (hidden.eraseIdx k) { shape with height := shape.height + 1, literal := none }
        (below.eraseIdx k) m' := by
  obtain ⟨hk', hget⟩ := List.getElem?_eq_some_iff.mp hk
  have hb : k < below.length := h.marks.length_eq ▸ hk'
  obtain ⟨top, hmain, hlen, hclean⟩ := h.main
  refine ⟨_, run_number (f := fun n => m.raise n) hn fun s => rfl, ?_, ?_, ?_, nofun⟩
  · have hmarks := (h.mono hQP).marks
    unfold Marks at hmarks ⊢
    rw [List.eraseIdx_eq_take_drop_succ, List.eraseIdx_eq_take_drop_succ]
    exact List.rel_append (List.forall₂_take k hmarks) (List.forall₂_drop (k + 1) hmarks)
  · refine ⟨below[k] :: top, ?_, by rw [List.length_cons, hlen], fun i hi hq => ?_⟩
    · change m.peek (shape.height + k) :: m.main.eraseIdx (shape.height + k) = _
      rw [h.peek_hidden hb, hmain, List.eraseIdx_append_of_length_le (by omega), hlen,
        Nat.add_sub_cancel_left]
      rfl
    · rcases List.mem_cons.mp hi with rfl | hi
      · refine copy_of_marks (h.marks.get hk' hb) hQP (fun x hx => ?_) hq
        cases hget.symm.trans hx
        exact hdead
      · exact hclean i hi (hQP _ hq)
  · change List.Forall₂ _ shape.arms m.frames
    rw [hopen, h.frames_eq_nil hopen]
    exact .nil

/-- Hidden items on top whose names do not matter any more are expressions. -/
theorem elide (h : Tracks P hidden shape below m) {names : List Name} {hidden' : Hidden}
    (htop : hidden = names.reverse.map some ++ hidden') (hopen : shape.arms = [])
    (hheight : shape.height = 0) (hQP : ∀ x, Q x → P x) (hdead : ∀ name ∈ names, ¬ Q name)
    (harms : shape'.arms = shape.arms) (hheight' : shape'.height = shape.height + names.length)
    (hlit : shape'.literal = none ∨ shape'.literal = shape.literal) :
    ∃ below', Tracks Q hidden' shape' below' m := by
  have hmarks := h.marks
  rw [htop] at hmarks
  obtain ⟨tops, below', rfl, htops, hbelow⟩ := forall₂_append_left hmarks
  obtain ⟨top, hmain, hlen, -⟩ := h.main
  obtain rfl : top = [] := List.length_eq_zero_iff.mp (hlen.trans hheight)
  refine ⟨below', hbelow.imp fun _ _ h x hx => h x (hQP x hx), ⟨tops, hmain, ?_, fun i hi hq => ?_⟩,
    ?_, fun n hn => ?_⟩
  · rw [hheight', hheight, ← htops.length_eq]
    simp
  · obtain ⟨j, hj, rfl⟩ := List.getElem_of_mem hi
    have hj' : j < (names.reverse.map some).length := htops.length_eq ▸ hj
    refine copy_of_marks (htops.get hj' hj) hQP (fun x hx => ?_) hq
    have hmem : some x ∈ names.reverse.map some := hx ▸ List.getElem_mem hj'
    exact hdead x (by simpa using hmem)
  · rw [harms, hopen, h.frames_eq_nil hopen]
    exact .nil
  · rcases hlit with hlit | hlit
    · cases hlit.symm.trans hn
    · exact h.literal n (hlit ▸ hn)

/-! ### Writes -/

private theorem marks_write {f : Item → Item}
    (hmarks : Marks P hidden below) (hQP : ∀ x, Q x → x ≠ name → P x)
    (hf : ∀ i x, Q x → x ≠ name →
      ((f i).name = x ∧ (f i).copy = false ↔ i.name = x ∧ i.copy = false))
    (hname : ∀ i, Q name → ¬ ((f i).name = name ∧ (f i).copy = false)) :
    Marks Q (hidden.map fun o => if o = some name then none else o) (below.map f) := by
  refine List.forall₂_map_left_iff.mpr (List.forall₂_map_right_iff.mpr (hmarks.imp ?_))
  intro o i hmark x hq
  by_cases hx : x = name
  · subst hx
    refine ⟨fun h => absurd h (hname i hq), fun h => ?_⟩
    split at h
    · cases h
    · contradiction
  · rw [hf i x hq hx, hmark x (hQP x hq hx)]
    split
    · next ho =>
      refine ⟨fun h => ?_, nofun⟩
      cases ho.symm.trans h
      exact absurd rfl hx
    · rfl

/-- An item without a label that it has. -/
private def unlabelled (name : Name) (i : Item) : Item :=
  if i.name = name then { i with name := [], copy := false } else i

private theorem name_unlabelled {x : Name} (hx : x ≠ []) :
    (unlabelled name i).name = x ∧ (unlabelled name i).copy = false ↔
      x ≠ name ∧ i.name = x ∧ i.copy = false := by
  unfold unlabelled
  split
  · next h =>
    subst h
    exact ⟨fun h => absurd h.1.symm hx, fun h => absurd h.2.1.symm h.1⟩
  · next h => exact ⟨fun k => ⟨fun hn => h (k.1.trans hn), k⟩, fun k => k.2⟩

/-- A write labels the item on top, which is hidden from then on. -/
theorem write (h : Tracks P hidden shape below m) (hopen : shape.arms = [])
    (hheight : shape.height = 1) (hQ : ¬ Q []) (hQP : ∀ x, Q x → x ≠ name → P x)
    (written : List Name) :
    ∃ m' below', m.step (.of (.assign name)) = .ok m' ∧
      Tracks Q (hidden.write name) { written } below' m' := by
  obtain ⟨top, hmain, hlen, -⟩ := h.main
  obtain ⟨t, rfl⟩ := List.length_eq_one_iff.mp (hlen.trans hheight)
  have hassign : m.assign name =
      { m with
        main :=
          { unlabelled name t with name, copy := false } :: below.map (unlabelled name) } := by
    simp only [Machine.assign, hmain]
    rfl
  have hne (x : Name) (hq : Q x) : x ≠ [] := fun hx => hQ (hx ▸ hq)
  refine ⟨m.assign name,
    { unlabelled name t with name, copy := false } :: below.map (unlabelled name), rfl, ?_⟩
  rw [hassign]
  refine ⟨.cons (fun x _ => by simp)
    (marks_write h.marks hQP (fun i x hq hx => ?_) fun i hq hi => ?_),
    ⟨[], rfl, rfl, nofun⟩, ?_, nofun⟩
  · rw [name_unlabelled (hne x hq)]
    exact ⟨fun k => k.2, fun k => ⟨hx, k⟩⟩
  · exact ((name_unlabelled (hne name hq)).mp hi).1 rfl
  · rw [h.frames_eq_nil hopen]
    exact .nil

/-- A write of a name that does not matter may be left out. -/
theorem skip_write (h : Tracks P hidden shape below m) (hopen : shape.arms = [])
    (hheight : shape.height = 1) (hQP : ∀ x, Q x → x ≠ name → P x) (hname : ¬ Q name)
    (written : List Name) : ∃ below', Tracks Q (hidden.write name) { written } below' m := by
  obtain ⟨top, hmain, hlen, hclean⟩ := h.main
  obtain ⟨t, rfl⟩ := List.length_eq_one_iff.mp (hlen.trans hheight)
  have hne (x : Name) (hq : Q x) : x ≠ name := fun hx => hname (hx ▸ hq)
  refine ⟨t :: below, .cons (fun x hq => ?_) ?_, ⟨[], hmain, rfl, nofun⟩, ?_, nofun⟩
  · constructor
    · rintro ⟨rfl, hcopy⟩
      have := hclean t List.mem_cons_self (hQP _ hq (hne _ hq))
      cases hcopy.symm.trans this
    · intro hx
      cases hx
      exact absurd hq hname
  · have := marks_write (f := id) h.marks hQP (fun _ _ _ _ => .rfl) fun i hq => absurd hq hname
    rwa [List.map_id] at this
  · rw [h.frames_eq_nil hopen]
    exact .nil

end Tracks

end NamedStack.Named
