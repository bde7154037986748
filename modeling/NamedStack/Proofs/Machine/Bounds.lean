import NamedStack.Proofs.Machine.Positional
import NamedStack.Proofs.Machine.Written

/-!
# Where the machine leaves its stacks

An opcode may find too few items, a marker may stand without a conditional and a name may be given
to nothing: the machine reaches for no position outside of its stacks. It does so only where `PICK`
or `ROLL` takes a known negative number, and then it stops. Known numbers come from data of at most
four bytes, from small integers and from heights, and are moved, copied and joined; none of them is
so low that working out a position from it would not fit in 64 bits.
-/

namespace NamedStack

/-! ### Known numbers -/

/-- Whether the number of an item, if it is known, is one that four bytes can hold or a positive
one. -/
def Item.Bounded (i : Item) : Prop := ∀ n, i.num = some n → -2 ^ 31 < n

namespace Machine

open Engine (bind_eq_ok_iff)

variable {m m' : Machine} {s : Step}

/-- Whether all items of a machine, on its stacks and in its open conditionals, are bounded. -/
structure Bounded (m : Machine) : Prop where
  each : m.Each Item.Bounded
  frames : ∀ f ∈ m.frames, ∀ i ∈ f.entry ++ f.alt ++ f.arm.getD [], i.Bounded

private theorem closed_bounded : Closed Item.Bounded where
  anonymous := fun _ h => by cases h
  number n hn k hk := Option.some.inj hk ▸ hn
  duplicate i hi := by
    unfold Item.duplicate
    split
    · exact hi
    · exact hi

private theorem lt_of_read? {data : Bytes} {n : Int} (h : ScriptNum.read? data = some n) :
    -2 ^ 31 < n := by
  rw [ScriptNum.read?_eq] at h
  split at h
  · next hlen =>
    cases h
    unfold ScriptNum.value
    by_cases hne : data = []
    · subst hne
      decide
    · have hlt := ScriptNum.two_mul_magnitude_lt data hne
      have hpow : 256 ^ data.length ≤ 256 ^ 4 := Nat.pow_le_pow_right (by decide) hlen
      split <;> omega
  · cases h

private theorem mem_first_of_mem_merge {first second : List Item} {i : Item}
    (hi : i ∈ merge first second) : i = .anonymous ∨ i ∈ first := by
  by_cases hlen : first.length = second.length
  · exact (mem_merge hlen hi).imp_right And.left
  · rw [merge, if_neg hlen] at hi
    exact .inr hi

namespace Bounded

private theorem start (names : List Name) : (Machine.start names).Bounded := by
  refine ⟨⟨fun i hi => ?_, List.forall_mem_nil _⟩, List.forall_mem_nil _⟩
  obtain ⟨name, -, rfl⟩ := List.mem_map.mp (List.mem_reverse.mp hi)
  intro n hn
  cases hn

private theorem push (h : m.Bounded) {i : Item} (hi : i.Bounded) : (m.push [i]).Bounded :=
  ⟨h.each.pushOne hi, h.frames⟩

private theorem assign (h : m.Bounded) (name : Name) : (m.assign name).Bounded := by
  have hcleared : ∀ i ∈ m.main.map fun i =>
      if i.name = name then { i with name := [], copy := false } else i, i.Bounded := by
    intro _ hmem
    obtain ⟨i, hi, rfl⟩ := List.mem_map.mp hmem
    split <;> exact h.each.main i hi
  unfold Machine.assign
  dsimp only
  split
  · exact ⟨⟨List.forall_mem_singleton.mpr closed_bounded.anonymous, h.each.alt⟩, h.frames⟩
  · next hmain =>
    rw [hmain] at hcleared
    obtain ⟨htop, hrest⟩ := List.forall_mem_cons.mp hcleared
    exact ⟨⟨List.forall_mem_cons.mpr ⟨htop, hrest⟩, h.each.alt⟩, h.frames⟩

private theorem marker (h : m.Bounded) {o : Opcode} (ho : o.isMarker = true)
    (hrun : m.runOp s o = .ok m') : m'.Bounded := by
  cases o with
  | opIf | opNotIf =>
    cases hrun
    have hdrop := h.each.drop 1
    refine ⟨⟨hdrop.main, hdrop.alt⟩, List.forall_mem_cons.mpr ⟨?_, h.frames⟩⟩
    intro i hi
    rw [Option.getD_none, List.append_nil] at hi
    exact (List.mem_append.mp hi).elim (hdrop.main i) (hdrop.alt i)
  | opElse =>
    simp only [Machine.runOp] at hrun
    split at hrun
    · cases hrun
      exact h
    · next f rest hf =>
      cases hrun
      obtain ⟨hframe, hrest⟩ := List.forall_mem_cons.mp (hf ▸ h.frames)
      have hentry : ∀ i ∈ f.entry, i.Bounded := fun i hi =>
        hframe i (List.mem_append_left _ (List.mem_append_left _ hi))
      have halt : ∀ i ∈ f.alt, i.Bounded := fun i hi =>
        hframe i (List.mem_append_left _ (List.mem_append_right _ hi))
      refine ⟨⟨hentry, halt⟩, List.forall_mem_cons.mpr ⟨?_, hrest⟩⟩
      intro i hi
      rcases List.mem_append.mp hi with hi | hi
      · exact (List.mem_append.mp hi).elim (hentry i) (halt i)
      · exact h.each.main i hi
  | opEndIf =>
    simp only [Machine.runOp] at hrun
    split at hrun
    · cases hrun
      exact h
    · next f rest hf =>
      cases hrun
      obtain ⟨hframe, hrest⟩ := List.forall_mem_cons.mp (hf ▸ h.frames)
      refine ⟨⟨fun i hi => ?_, h.each.alt⟩, hrest⟩
      dsimp only at hi
      split at hi
      · next arm harm =>
        rcases mem_first_of_mem_merge hi with rfl | hi
        · exact closed_bounded.anonymous
        · exact hframe i (List.mem_append_right _ (by rw [harm]; exact hi))
      · rcases mem_first_of_mem_merge hi with rfl | hi
        · exact closed_bounded.anonymous
        · exact h.each.main i hi
  | _ => cases ho

/-- A step keeps all items bounded. -/
theorem step (h : m.Bounded) (hstep : m.step s = .ok m') : m'.Bounded := by
  rw [Machine.step] at hstep
  cases hinstr : s.instr with
  | op o =>
    rw [hinstr] at hstep
    cases ho : o.isMarker with
    | true => exact h.marker ho hstep
    | false =>
      obtain ⟨heach, hframes⟩ := h.each.runOp closed_bounded ho hstep
      exact ⟨heach, hframes ▸ h.frames⟩
  | push data =>
    rw [hinstr] at hstep
    cases hstep
    refine h.push ?_
    split
    · next n hn => exact closed_bounded.number n (lt_of_read? hn)
    · exact closed_bounded.anonymous
  | inner | assume | var =>
    rw [hinstr] at hstep
    cases hstep
    exact h.push closed_bounded.anonymous
  | assign name =>
    rw [hinstr] at hstep
    cases hstep
    exact h.assign name
  | call =>
    rw [hinstr] at hstep
    cases hstep
    exact h

/-- A run keeps all items bounded. -/
theorem run (h : m.Bounded) {steps : List Step} (hrun : m.run steps = .ok m') : m'.Bounded := by
  induction steps generalizing m with
  | nil =>
    cases hrun
    exact h
  | cons s steps ih =>
    obtain ⟨m₁, hstep, hrest⟩ := bind_eq_ok_iff.mp hrun
    exact ih (h.step hstep) hrest

end Bounded

/-! ### Where the machine stops -/

/-- Whether a step takes a known negative number for `PICK` or `ROLL`. -/
def Strays (m : Machine) (s : Step) : Prop :=
  (s.instr = .op .pick ∨ s.instr = .op .roll) ∧ ∃ n, m.pop.1.num = some n ∧ n < 0

private theorem exists_ok_runOp (m : Machine) (s : Step) {o : Opcode} (hpick : o ≠ .pick)
    (hroll : o ≠ .roll) : ∃ m', m.runOp s o = .ok m' := by
  cases o with
  | pick => exact absurd rfl hpick
  | roll => exact absurd rfl hroll
  | opElse | opEndIf =>
    unfold Machine.runOp
    cases m.frames with
    | nil => exact ⟨_, rfl⟩
    | cons f rest => exact ⟨_, rfl⟩
  | fromAltStack =>
    unfold Machine.runOp
    cases m.alt with
    | nil => exact ⟨_, rfl⟩
    | cons i rest => exact ⟨_, rfl⟩
  | _ => exact ⟨_, rfl⟩

private theorem runOp_eq_error_iff (m : Machine) (s : Step) {o : Opcode}
    (ho : o = .pick ∨ o = .roll) :
    (∃ m', m.runOp s o = .error m') ↔ ∃ n, m.pop.1.num = some n ∧ n < 0 := by
  rcases ho with rfl | rfl
  all_goals
    simp only [Machine.runOp]
    cases hn : m.pop.1.num with
    | none => simp
    | some n =>
      by_cases hneg : n < 0
      · simp [hneg]
      · simp [hneg]

/-- A step stops exactly if it takes a known negative number for `PICK` or `ROLL`. -/
theorem step_eq_error_iff (m : Machine) (s : Step) : (∃ m', m.step s = .error m') ↔ m.Strays s := by
  unfold Machine.step Strays
  cases s.instr with
  | op o =>
    by_cases ho : o = .pick ∨ o = .roll
    · simp [runOp_eq_error_iff m s ho, ho]
    · rw [not_or] at ho
      obtain ⟨m', hm⟩ := exists_ok_runOp m s ho.1 ho.2
      simp [hm, ho]
  | _ => simp

/-- A run stops exactly if one of its steps does. -/
theorem run_eq_error_iff (m : Machine) (steps : List Step) :
    (∃ m', m.run steps = .error m') ↔ ∃ before s after m', steps = before ++ s :: after ∧
      m.run before = .ok m' ∧ m'.Strays s := by
  constructor
  · rintro ⟨m', hrun⟩
    obtain ⟨before, s, after, m₁, hsteps, hbefore, hstep⟩ := Sequence.foldlM_eq_error_iff.mp hrun
    exact ⟨before, s, after, m₁, hsteps, hbefore, (step_eq_error_iff m₁ s).mp ⟨m', hstep⟩⟩
  · rintro ⟨before, s, after, m₁, hsteps, hbefore, hstrays⟩
    obtain ⟨m', hstep⟩ := (step_eq_error_iff m₁ s).mpr hstrays
    exact ⟨m', Sequence.foldlM_eq_error_iff.mpr ⟨before, s, after, m₁, hsteps, hbefore, hstep⟩⟩

/-- Whether some step of a run takes a known negative number for `PICK` or `ROLL`. -/
def StraysIn (names : List Name) (steps : List Step) : Prop :=
  ∃ before s after m, steps = before ++ s :: after ∧ (start names).run before = .ok m ∧ m.Strays s

/-- A run on stacks that are reached by position leaves them exactly if some step takes a known
negative number for `PICK` or `ROLL`, where the machine stops too; any other run comes to its end,
with the stacks of the machine. No number that a step takes is so low that a position could not be
worked out from it in 64 bits. -/
theorem run_leaves_stack_iff_strays (names : List Name) (steps : List Step) :
    (StraysIn names steps →
      Positional.run (Positional.start names) steps = .error .outOfRange ∧
        ∃ m, (start names).run steps = .error m) ∧
    (¬ StraysIn names steps →
      ∃ m, Positional.run (Positional.start names) steps = .ok (Positional.ofMachine m) ∧
        (start names).run steps = .ok m) ∧
    ∀ before m n, before <+: steps → (start names).run before = .ok m → m.pop.1.num = some n →
      -2 ^ 31 < n := by
  rw [Positional.start_eq, Positional.run_ofMachine]
  refine ⟨fun hstrays => ?_, fun hnot => ?_, fun before m n _ hrun hn => ?_⟩
  · obtain ⟨m, hm⟩ := (run_eq_error_iff _ _).mpr hstrays
    rw [hm]
    exact ⟨rfl, m, rfl⟩
  · cases hrun : (start names).run steps with
    | error m => exact absurd ((run_eq_error_iff _ _).mp ⟨m, hrun⟩) hnot
    | ok m => exact ⟨m, rfl, rfl⟩
  · exact ((Bounded.start names).run hrun).each.peek closed_bounded 0 n hn

/-- A negative number that reaches `ROLL` as a copy, by way of the alt stack. -/
def carriedNegative : List Step :=
  Step.ofList [.push [0x81], .op .toAltStack, .op .fromAltStack, .op .dup, .op .roll]

/-- Markers without a conditional, and opcodes that find no items. -/
def underflowing : List Step :=
  Step.ofList [.op .opElse, .op .opEndIf, .op .tuck, .op .drop2, .assign (text "x"), .op .rot2,
    .op .roll]

/-- A negative number that is carried along, and opcodes that find no items. -/
theorem run_leaves_stack_iff_strays_carried_and_underflowing :
    Positional.run (Positional.start [text "a"]) carriedNegative = .error .outOfRange ∧
      ∃ m, Positional.run (Positional.start []) underflowing = .ok (Positional.ofMachine m) := by
  have hcarried : StraysIn [text "a"] carriedNegative :=
    ⟨carriedNegative.take 4, Step.of (.op .roll), [], _, rfl, rfl, .inr rfl, -1, rfl, by decide⟩
  obtain ⟨hstop, hend, -⟩ := run_leaves_stack_iff_strays [] underflowing
  have hnot : ¬ StraysIn [] underflowing := by
    intro h
    obtain ⟨-, m, hm⟩ := hstop h
    cases hm
  obtain ⟨m, hm, -⟩ := hend hnot
  exact ⟨((run_leaves_stack_iff_strays _ _).1 hcarried).1, m, hm⟩

end Machine

end NamedStack
