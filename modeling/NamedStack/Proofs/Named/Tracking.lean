import NamedStack.Machine.State
import NamedStack.Proofs.Named.Layout

/-!
# What the labels of a machine tell

The simulated machine keeps labels of items. Over code that is resolved from the left it has, like
the engine, the expressions on top of the hidden items. Its labels are right for the names that are
still to be read: the hidden item of such a name is labelled with it, no other item is, and an
expression with such a label is marked as a copy. An opcode makes items without a label, or with one
that an item had before.
-/

namespace NamedStack.Named

/-- Whether the items that are labelled with names that matter are copies. -/
def Clean (P : Name → Prop) (items : List Item) : Prop := ∀ i ∈ items, P i.name → i.copy = true

/-- Whether items are labelled as hidden items, as far as names matter. -/
def Marks (P : Name → Prop) (hidden : Hidden) (items : List Item) : Prop :=
  List.Forall₂ (fun o i => ∀ x, P x → (i.name = x ∧ i.copy = false ↔ o = some x)) hidden items

/-- Whether a stack has so many clean items above others. -/
def Covers (P : Name → Prop) (below : List Item) (n : Nat) (items : List Item) : Prop :=
  ∃ top, items = top ++ below ∧ top.length = n ∧ Clean P top

/-- Whether a frame of the machine is that of an open conditional. -/
inductive Frames (P : Name → Prop) (below : List Item) : Level Nat → Frame → Prop
  | first {n : Nat} {entry alt : List Item} (h : Covers P below n entry) :
      Frames P below { entry := n } { entry, alt }
  | second {n k : Nat} {entry alt arm : List Item} (h : Covers P below n entry)
      (harm : Covers P below k arm) :
      Frames P below { entry := n, arm := some k } { entry, alt, arm := some arm }

/-- Whether the machine agrees with what is known of a program, and its labels are right for the
names that matter. -/
structure Tracks (P : Name → Prop) (hidden : Hidden) (shape : Shape) (below : List Item)
    (m : Machine) : Prop where
  marks : Marks P hidden below
  main : Covers P below shape.height m.main
  frames : List.Forall₂ (Frames P below) shape.arms m.frames
  literal : ∀ n, shape.literal = some n → (m.peek 0).num = some n

variable {P Q : Name → Prop} {hidden : Hidden} {shape : Shape} {below : List Item} {m : Machine}

/-! ### Fewer names -/

variable {items out top : List Item} {i : Item} {r : Nat}

private theorem Clean.mono (h : Clean P items) (hPQ : ∀ x, Q x → P x) : Clean Q items :=
  fun i hi hq => h i hi (hPQ _ hq)

private theorem Covers.mono {n : Nat} (h : Covers P below n items) (hPQ : ∀ x, Q x → P x) :
    Covers Q below n items := by
  obtain ⟨top, rfl, hlen, hclean⟩ := h
  exact ⟨top, rfl, hlen, hclean.mono hPQ⟩

private theorem Frames.mono {a : Level Nat} {f : Frame} (h : Frames P below a f)
    (hPQ : ∀ x, Q x → P x) : Frames Q below a f := by
  cases h with
  | first h => exact .first (h.mono hPQ)
  | second h harm => exact .second (h.mono hPQ) (harm.mono hPQ)

/-- The labels are right for fewer names. -/
theorem Tracks.mono (h : Tracks P hidden shape below m) (hPQ : ∀ x, Q x → P x) :
    Tracks Q hidden shape below m where
  marks := h.marks.imp fun _ _ h x hx => h x (hPQ x hx)
  main := h.main.mono hPQ
  frames := h.frames.imp fun _ _ h => h.mono hPQ
  literal := h.literal

/-! ### Opcodes -/

/-- Whether items come from others: the items themselves, copies of them, and ones without a label.
-/
def Derived (old new : List Item) : Prop :=
  ∀ i ∈ new, i ∈ old ∨ (∃ j ∈ old, i = j.duplicate) ∨ i.name = []

/-- A duplicate with a label that matters is marked as a copy. -/
theorem Clean.duplicate (hP : ¬ P []) : P i.duplicate.name → i.duplicate.copy = true := by
  intro h
  unfold Item.duplicate at h ⊢
  split at h
  · next he =>
    rw [List.isEmpty_iff] at he
    exact absurd (he ▸ h) hP
  · next he => rw [if_neg he]

/-- Items that come from clean ones are clean. -/
theorem Clean.derived {old new : List Item} (h : Clean P old) (hP : ¬ P [])
    (hd : Derived old new) : Clean P new := by
  intro i hi hp
  rcases hd i hi with hi | ⟨j, -, rfl⟩ | hi
  · exact h i hi hp
  · exact Clean.duplicate hP hp
  · exact absurd (hi ▸ hp) hP

/-- Whether the machine does to items on top what an opcode does to their number, whatever lies
below them. -/
structure RunsOn (o : Opcode) (front out : List Item) : Prop where
  run : ∀ (m : Machine) (rest : List Item), m.main = front ++ rest →
    m.runOp (.op o) o = .ok { m with main := out ++ rest }
  length : (out.length : Int) = front.length + o.info.delta
  derived : Derived front out
  literal : ∀ n, o.smallInt? = some n → ∃ i, out.head? = some i ∧ i.num = some n

variable {front : List Item} {o : Opcode}

private theorem RunsOn.append (h : RunsOn o front out) (more : List Item) :
    RunsOn o (front ++ more) (out ++ more) where
  run m rest hm := by
    rw [List.append_assoc] at hm
    rw [h.run m _ hm, List.append_assoc]
  length := by
    have := h.length
    simp only [List.length_append]
    omega
  derived i hi := by
    rcases List.mem_append.mp hi with hi | hi
    · rcases h.derived i hi with hi | ⟨j, hj, rfl⟩ | hi
      · exact .inl (List.mem_append_left _ hi)
      · exact .inr (.inl ⟨j, List.mem_append_left _ hj, rfl⟩)
      · exact .inr (.inr hi)
    · exact .inl (List.mem_append_right _ hi)
  literal n hn := by
    obtain ⟨i, hi, hnum⟩ := h.literal n hn
    exact ⟨i, by rw [List.head?_append, hi]; rfl, hnum⟩

private theorem runsOn_generic (hrun : ∀ m s, Machine.runOp m s o = .ok (m.generic s))
    (hlit : o.smallInt? = none) (hd : 0 ≤ o.info.args.length + o.info.delta)
    (hf : front.length = o.info.args.length) :
    RunsOn o front (List.replicate (o.info.args.length + o.info.delta).toNat .anonymous) where
  run m rest hm := by
    rw [hrun]
    have hargs : (Step.op o).args = o.info.args := rfl
    have hdelta : (Step.op o).delta = o.info.delta := rfl
    simp [Machine.generic, Machine.push, Machine.drop, hm, hargs, hdelta, ← hf]
  length := by
    rw [List.length_replicate, hf, Int.toNat_of_nonneg hd]
  derived i hi := .inr (.inr (by rw [List.eq_of_mem_replicate hi]; rfl))
  literal n hn := by
    rw [hlit] at hn
    cases hn

private theorem runsOn_move (hlit : o.smallInt? = none)
    (hrun : ∀ (m : Machine) (rest : List Item), m.main = front ++ rest →
      m.runOp (.op o) o = .ok { m with main := out ++ rest })
    (hlen : (out.length : Int) = front.length + o.info.delta) (hd : Derived front out) :
    RunsOn o front out where
  run := hrun
  length := hlen
  derived := hd
  literal n hn := by
    rw [hlit] at hn
    cases hn

private theorem runsOn_copies {ns : List Nat} (hlit : o.smallInt? = none)
    (hrun : ∀ m s, Machine.runOp m s o = .ok (m.pushCopies ns)) (hns : ∀ n ∈ ns, n < front.length)
    (hd : o.info.delta = ns.length) :
    RunsOn o front ((ns.map fun n => (front[n]?.getD .anonymous).duplicate).reverse ++ front) := by
  refine runsOn_move hlit (fun m rest h => ?_) ?_ fun i hi => ?_
  · have hcopies : (ns.map fun n => (m.peek n).duplicate) =
        ns.map fun n => (front[n]?.getD .anonymous).duplicate := by
      refine List.map_congr_left fun n hn => ?_
      rw [Machine.peek, h, List.getElem?_append_left (hns n hn)]
    rw [hrun, Machine.pushCopies, hcopies, Machine.push, h, List.append_assoc]
  · simp [hd, Int.add_comm]
  · rcases List.mem_append.mp hi with hi | hi
    · obtain ⟨n, hn, rfl⟩ := List.mem_map.mp (List.mem_reverse.mp hi)
      refine .inr (.inl ⟨_, ?_, rfl⟩)
      rw [List.getElem?_eq_getElem (hns n hn)]
      exact List.getElem_mem _
    · exact .inl hi

private theorem runsOn_exact (hr : reach none o = some r) (hm : o.isMarker = false)
    (hf : front.length = r) : ∃ out, RunsOn o front out := by
  cases o with
  | opIf | opNotIf | opElse | opEndIf => cases hm
  | pick | roll | depth | ifDup | checkMultiSig | checkMultiSigVerify | toAltStack | fromAltStack =>
    cases hr
  | small n =>
    cases hr
    match front, hf with
    | [], _ =>
      refine ⟨[.number n.val], fun m rest h => ?_, rfl, ?_, fun k hk => ⟨_, rfl, hk⟩⟩
      · simp [Machine.runOp, Machine.push, h]
      · simp [Derived, Item.number]
  | drop =>
    cases hr
    match front, hf with
    | [x], _ =>
      refine ⟨[], runsOn_move rfl (fun m rest h => ?_) rfl nofun⟩
      simp [Machine.runOp, Machine.drop, h]
  | drop2 =>
    cases hr
    match front, hf with
    | [y, x], _ =>
      refine ⟨[], runsOn_move rfl (fun m rest h => ?_) rfl nofun⟩
      simp [Machine.runOp, Machine.drop, h]
  | dup | dup2 | dup3 | over2 =>
    cases hr
    exact ⟨_, runsOn_copies rfl (fun _ _ => rfl) (by rw [hf]; decide) rfl⟩
  | nip =>
    cases hr
    match front, hf with
    | [y, x], _ =>
      refine ⟨[y], runsOn_move rfl (fun m rest h => ?_) rfl ?_⟩
      · simp [Machine.runOp, Machine.take, h]
      · simp [Derived]
  | rot =>
    cases hr
    match front, hf with
    | [z, y, x], _ =>
      refine ⟨[x, z, y], runsOn_move rfl (fun m rest h => ?_) rfl ?_⟩
      · simp [Machine.runOp, Machine.raise, Machine.take, Machine.push, Machine.peek, h]
      · simp [Derived]
  | swap =>
    cases hr
    match front, hf with
    | [y, x], _ =>
      refine ⟨[x, y], runsOn_move rfl (fun m rest h => ?_) rfl ?_⟩
      · simp [Machine.runOp, Machine.raise, Machine.take, Machine.push, Machine.peek, h]
      · simp [Derived]
  | rot2 =>
    cases hr
    match front, hf with
    | [f, e, d, c, b, a], _ =>
      refine ⟨[b, a, f, e, d, c], runsOn_move rfl (fun m rest h => ?_) rfl ?_⟩
      · simp [Machine.runOp, Machine.raisePair, Machine.take, Machine.push, Machine.peek, h]
      · simp [Derived]
  | swap2 =>
    cases hr
    match front, hf with
    | [d, c, b, a], _ =>
      refine ⟨[b, a, d, c], runsOn_move rfl (fun m rest h => ?_) rfl ?_⟩
      · simp [Machine.runOp, Machine.raisePair, Machine.take, Machine.push, Machine.peek, h]
      · simp [Derived]
  | tuck =>
    cases hr
    match front, hf with
    | [y, x], _ =>
      refine ⟨[y, x, y.duplicate], runsOn_move rfl (fun m rest h => ?_) rfl ?_⟩
      · simp [Machine.runOp, Machine.peek, h]
      · simp [Derived]
  | size =>
    cases hr
    match front, hf with
    | [x], _ =>
      refine ⟨[.anonymous, x], runsOn_move rfl (fun m rest h => ?_) rfl ?_⟩
      · simp [Machine.runOp, Machine.push, h]
      · simp [Derived, Item.anonymous]
  | unary u =>
    cases u <;> (cases hr; exact ⟨_, runsOn_generic (fun _ _ => rfl) rfl (by decide) hf⟩)
  | binary b =>
    cases b <;> (cases hr; exact ⟨_, runsOn_generic (fun _ _ => rfl) rfl (by decide) hf⟩)
  | hash h =>
    cases h <;> (cases hr; exact ⟨_, runsOn_generic (fun _ _ => rfl) rfl (by decide) hf⟩)
  | reserved q =>
    cases q <;> (cases hr; exact ⟨_, runsOn_generic (fun _ _ => rfl) rfl (by decide) hf⟩)
  | disabled d =>
    cases d <;> (cases hr; exact ⟨_, runsOn_generic (fun _ _ => rfl) rfl (by decide) hf⟩)
  | nop | verify | opReturn | equal | equalVerify | numEqualVerify | within | codeSeparator
    | checkSig | checkSigVerify | checkLockTimeVerify | checkSequenceVerify =>
    cases hr
    exact ⟨_, runsOn_generic (fun _ _ => rfl) rfl (by decide) hf⟩
  | _ =>
    -- what is left is the copy of the second item
    cases hr
    exact ⟨_, runsOn_copies rfl (fun _ _ => rfl) (by rw [hf]; decide) rfl⟩

private theorem runsOn_indexed (ho : o = .pick ∨ o = .roll) {n : Int} (hi : i.num = some n)
    (hn : 0 ≤ n) (htop : n.toNat < top.length) : ∃ out, RunsOn o (i :: top) out := by
  have hpeek (rest : List Item) : (top ++ rest)[n.toNat]? = some top[n.toNat] := by
    rw [List.getElem?_append_left htop, List.getElem?_eq_getElem htop]
  have hmem : top[n.toNat] ∈ i :: top := List.mem_cons_of_mem _ (List.getElem_mem _)
  rcases ho with rfl | rfl
  · refine ⟨top[n.toNat].duplicate :: top, runsOn_move rfl (fun m rest h => ?_) ?_ ?_⟩
    · simp [Machine.runOp, Machine.pop, Machine.peek, h, hi, Int.not_lt.mpr hn, Machine.pushCopies,
        Machine.push, hpeek]
    · simp [Opcode.info]
    · intro j hj
      rcases List.mem_cons.mp hj with rfl | hj
      · exact .inr (.inl ⟨_, hmem, rfl⟩)
      · exact .inl (List.mem_cons_of_mem _ hj)
  · refine ⟨top[n.toNat] :: top.eraseIdx n.toNat, runsOn_move rfl (fun m rest h => ?_) ?_ ?_⟩
    · simp [Machine.runOp, Machine.pop, Machine.peek, h, hi, Int.not_lt.mpr hn, Machine.raise,
        Machine.take, Machine.push, hpeek, List.eraseIdx_append_of_lt_length htop]
    · simp only [List.length_cons, List.length_eraseIdx_of_lt htop, Opcode.info]
      omega
    · intro j hj
      rcases List.mem_cons.mp hj with rfl | hj
      · exact .inl hmem
      · exact .inl (List.mem_cons_of_mem _ (List.mem_of_mem_eraseIdx hj))

/-- An opcode that reaches no deeper than items does nothing to what lies below them. -/
theorem runsOn_of_reach {literal : Option Int} (hr : reach literal o = some r)
    (hm : o.isMarker = false) (htop : r ≤ top.length)
    (hlit : ∀ n, literal = some n → ∀ i ∈ top.head?, i.num = some n) : ∃ out, RunsOn o top out := by
  rcases reach_cases hr with ⟨ho, n, rfl, hn, rfl⟩ | hreach
  · cases top with
    | nil => simp at htop
    | cons i top =>
      refine runsOn_indexed ho (hlit n rfl i rfl) hn ?_
      simp only [List.length_cons] at htop
      omega
  · obtain ⟨out, h⟩ := runsOn_exact hreach hm (List.length_take_of_le htop)
    rw [← List.take_append_drop r top]
    exact ⟨_, h.append _⟩

end NamedStack.Named
