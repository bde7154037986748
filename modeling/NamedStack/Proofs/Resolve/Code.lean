import NamedStack.Proofs.AltSlots.Setup
import NamedStack.Proofs.Resolve.Expansion
import NamedStack.Resolve.Session

/-!
# The code of reads and writes

The steps that fill, read and write slots, and those that bring an item of the stack to the top, are
straight code. A read that takes nothing away adds one item.
-/

namespace NamedStack

/-- Whether steps are straight code about which nothing more is known. -/
def IsCode (steps : List Step) : Prop := ∀ s ∈ steps, ∃ i, s = .of i ∧ Straight i

/-- The number of items that steps add. -/
def gain (steps : List Step) : Int := ((Step.instrs steps).map Instr.delta).sum

variable {a b : List Step}

private theorem IsCode.append (ha : IsCode a) (hb : IsCode b) : IsCode (a ++ b) := by
  intro s hs
  exact (List.mem_append.mp hs).elim (ha s) (hb s)

/-- Code is genuine. -/
theorem IsCode.genuine (h : IsCode a) : ∀ s ∈ a, s.Genuine := by
  intro s hs
  obtain ⟨i, rfl, -⟩ := h s hs
  exact Step.genuine_of i

/-- Code is straight. -/
theorem IsCode.straight (h : IsCode a) : ∀ i ∈ Step.instrs a, Straight i := by
  intro i hi
  obtain ⟨s, hs, rfl⟩ := List.mem_map.mp hi
  obtain ⟨j, rfl, hj⟩ := h s hs
  exact hj

/-- The opcodes that the code of reads and writes is made of, besides numbers. -/
def shuffles : List Opcode := [.fromAltStack, .toAltStack, .dup, .swap, .drop, .pick, .roll]

private theorem isCode_ops {os : List Opcode} (h : os ⊆ shuffles) : IsCode (os.map Step.op) := by
  have hstraight : ∀ o ∈ shuffles, Straight (.op o) := by
    simp [shuffles, Straight, Opcode.isMarker, Steady]
  intro s hs
  obtain ⟨o, ho, rfl⟩ := List.mem_map.mp hs
  exact ⟨.op o, rfl, hstraight o (h ho)⟩

private theorem isCode_number (n : Int) : IsCode [.number n] := by
  intro s hs
  obtain rfl := List.mem_singleton.mp hs
  refine ⟨.number n, rfl, ?_⟩
  unfold Instr.number
  cases SmallInt.ofInt? n with
  | none => trivial
  | some k => exact ⟨rfl, trivial⟩

/-- The gain of code, and then of other code. -/
@[simp]
theorem gain_append : gain (a ++ b) = gain a + gain b := by
  simp [gain, Step.instrs]

/-- No steps gain nothing. -/
@[simp]
theorem gain_nil : gain [] = 0 := rfl

/-- The gain of the first step, and then of the rest. -/
@[simp]
theorem gain_cons (s : Step) : gain (s :: a) = s.instr.delta + gain a := by
  simp [gain, Step.instrs]

/-- An integer adds one item. -/
@[simp]
theorem delta_number (n : Int) : (Step.number n).instr.delta = 1 := by
  change (Instr.number n).delta = 1
  unfold Instr.number
  cases SmallInt.ofInt? n with
  | none => rfl
  | some k => rfl

/-- The names that are routed. -/
def Routing.names (r : Routing) : List Name := r.assumptions.map (·.1) ++ r.vars

namespace AltSlots

private theorem isCode_repeated {os : List Opcode} (h : os ⊆ shuffles) (n : Nat) :
    IsCode (repeated n os) := by
  induction n with
  | zero => exact nofun
  | succ n ih =>
    rw [repeated, List.replicate_succ, List.flatten_cons]
    exact (isCode_ops h).append ih

private theorem gain_repeated (n : Nat) (os : List Opcode) :
    gain (repeated n os) = n * gain (os.map Step.op) := by
  induction n with
  | zero => simp [repeated]
  | succ n ih =>
    rw [repeated, List.replicate_succ, List.flatten_cons, gain_append, ← repeated, ih]
    push_cast
    ring

variable {slots slots' : AltSlots} {height : Nat} {name : Name} {last : Bool} {steps : List Step}

/-- Reading a slot adds one item. -/
theorem get_code (h : slots.get height name last = .ok (some (steps, slots'))) :
    IsCode steps ∧ gain steps = 1 ∧ slots' ⊆ slots := by
  unfold get at h
  cases habove : slots.above height name with
  | error c =>
    rw [habove] at h
    cases h
  | ok r =>
    rw [habove] at h
    cases r with
    | none => cases h
    | some p =>
      obtain ⟨i, n⟩ := p
      have hfetch : IsCode (repeated n [.fromAltStack] ++ [.fromAltStack].map Step.op) :=
        (isCode_repeated (by decide) n).append (isCode_ops (by decide))
      have hkeep : IsCode ([.dup, .toAltStack].map Step.op) := isCode_ops (by decide)
      have hback : IsCode (repeated n [.swap, .toAltStack]) := isCode_repeated (by decide) n
      have hout : gain ([Opcode.fromAltStack].map Step.op) = 1 := rfl
      have hin : gain ([Opcode.swap, .toAltStack].map Step.op) = -1 := rfl
      have hdup : gain ([Opcode.dup, .toAltStack].map Step.op) = 0 := rfl
      cases last with
      | true =>
        cases h
        refine ⟨hfetch.append hback, ?_, List.eraseIdx_subset⟩
        change gain (repeated n [.fromAltStack] ++ [.fromAltStack].map Step.op ++
          repeated n [.swap, .toAltStack]) = 1
        rw [gain_append, gain_append, gain_repeated, gain_repeated, hout, hin]
        omega
      | false =>
        cases h
        refine ⟨(hfetch.append hkeep).append hback, ?_, List.Subset.refl _⟩
        change gain (repeated n [.fromAltStack] ++ [.fromAltStack].map Step.op ++
          [.dup, .toAltStack].map Step.op ++ repeated n [.swap, .toAltStack]) = 1
        rw [gain_append, gain_append, gain_append, gain_repeated, gain_repeated, hout, hin, hdup]
        omega

/-- Only a name with a slot is written into one. -/
theorem set_code (h : slots.set height name = .ok (some steps)) : IsCode steps ∧ name ∈ slots := by
  unfold set at h
  cases habove : slots.above height name with
  | error c =>
    rw [habove] at h
    cases h
  | ok r =>
    rw [habove] at h
    cases r with
    | none => cases h
    | some p =>
      obtain ⟨i, n⟩ := p
      cases h
      refine ⟨?_, ?_⟩
      · have hout : IsCode (repeated n [.fromAltStack]) := isCode_repeated (by decide) n
        have hdrop : IsCode ([.fromAltStack, .drop].map Step.op) := isCode_ops (by decide)
        have hroll : IsCode ([.roll, .toAltStack].map Step.op) := isCode_ops (by decide)
        have hback : IsCode (repeated n [.toAltStack]) := isCode_repeated (by decide) n
        exact (hout.append ((hdrop.append (isCode_number n)).append hroll)).append hback
      · rw [← routed_iff, routed]
        unfold above at habove
        split at habove
        · cases habove
        · next hslot => rw [hslot, Option.isSome_some]

private theorem moveIn_code {depth : Int} (h : moveIn depth = .ok steps) : IsCode steps := by
  have hmoves : IsCode ([.roll, .toAltStack].map Step.op) := isCode_ops (by decide)
  unfold moveIn Instr.ofInt at h
  split at h
  · next k hk =>
    cases h
    have hnumber : IsCode [.of (.op (.small k))] := by
      intro s hs
      obtain rfl := List.mem_singleton.mp hs
      exact ⟨_, rfl, rfl, trivial⟩
    exact hnumber.append hmoves
  · cases hdata : ScriptNum.encode depth with
    | error f =>
      rw [hdata] at h
      cases h
    | ok data =>
      rw [hdata] at h
      cases h
      have hnumber : IsCode [.of (.push data)] := by
        intro s hs
        obtain rfl := List.mem_singleton.mp hs
        exact ⟨_, rfl, trivial⟩
      exact hnumber.append hmoves

private theorem addItems_code {l : List (Name × Int)} {acc : AltSlots × List Step}
    (hacc : IsCode acc.2) (h : addItems l acc = .ok (slots, steps)) :
    IsCode steps ∧ slots = acc.1 ++ l.map (·.1) := by
  induction l generalizing acc with
  | nil =>
    cases h
    exact ⟨hacc, (List.append_nil _).symm⟩
  | cons p l ih =>
    obtain ⟨x, depth⟩ := p
    obtain ⟨slots₀, steps₀⟩ := acc
    rw [addItems] at h
    cases hmove : moveIn depth with
    | error f =>
      rw [hmove] at h
      cases h
    | ok new =>
      rw [hmove] at h
      obtain ⟨hcode, hslots⟩ := ih (hacc.append (moveIn_code hmove)) h
      refine ⟨hcode, hslots.trans ?_⟩
      rw [List.map_cons, List.append_assoc]
      rfl

private theorem addVariables_code (prog : List Step) (vars : List Name) (slots : AltSlots)
    (hsteps : IsCode steps) :
    IsCode (addVariables prog vars (slots, steps)).2 ∧
      (addVariables prog vars (slots, steps)).1 ⊆ slots ++ vars := by
  induction vars generalizing slots steps with
  | nil => exact ⟨hsteps, List.subset_append_left _ _⟩
  | cons x vars ih =>
    rw [addVariables]
    split
    · obtain ⟨hcode, hslots⟩ := ih slots hsteps
      refine ⟨hcode, List.Subset.trans hslots ?_⟩
      exact List.append_subset.mpr ⟨List.subset_append_left _ _,
        List.Subset.trans (List.subset_cons_self _ _) (List.subset_append_right _ _)⟩
    · have htoAlt : IsCode ([.toAltStack].map Step.op) := isCode_ops (by decide)
      obtain ⟨hcode, hslots⟩ :=
        ih (slots ++ [x]) (hsteps.append ((isCode_number 0).append htoAlt))
      refine ⟨hcode, ?_⟩
      rw [List.append_assoc] at hslots
      exact hslots

/-- Slots are filled by straight code, and only routed names have one. -/
theorem setup_code {enabled : Bool} {prog : List Step} {r : Routing}
    (h : setup enabled prog r = .ok (slots, steps)) : IsCode steps ∧ slots ⊆ r.names := by
  unfold setup at h
  cases hitems : addItems (if enabled then byDepth r.assumptions else []) ([], []) with
  | error e =>
    rw [hitems] at h
    cases h
  | ok moved =>
    rw [hitems] at h
    obtain ⟨slots₀, steps₀⟩ := moved
    obtain ⟨hcode, rfl⟩ := addItems_code (by exact nofun) hitems
    obtain ⟨hcode', hslots⟩ := addVariables_code prog r.vars _ hcode
    rw [Except.ok.inj h] at hcode' hslots
    refine ⟨hcode', fun x hx => ?_⟩
    rcases List.mem_append.mp (hslots hx) with hx | hx
    · rw [List.nil_append] at hx
      obtain ⟨p, hp, rfl⟩ := List.mem_map.mp hx
      apply List.mem_append_left
      split at hp
      · exact List.mem_map_of_mem (List.mem_mergeSort.mp hp)
      · cases hp
    · exact List.mem_append_right _ hx

end AltSlots

/-- An item of the stack is brought to the top by straight code, which adds one item if it is not
moved. -/
theorem Session.fetch_code {ctx : Context} {i : Nat} {name : Name} {pos : Int} {move : Bool}
    {r : Replacement} (h : fetch ctx i name pos move = .ok r) :
    r.2 = 1 ∧ IsCode r.1 ∧ (move = false → gain r.1 = 1) := by
  unfold fetch at h
  dsimp only at h
  split at h
  · cases h
  · split at h
    · next hmove =>
      cases h
      refine ⟨rfl, nofun, ?_⟩
      rintro rfl
      simp at hmove
    · cases h
      refine ⟨rfl, ?_, ?_⟩
      · have hroll : IsCode ([.roll].map Step.op) := isCode_ops (by decide)
        have hpick : IsCode ([.pick].map Step.op) := isCode_ops (by decide)
        cases move with
        | true => exact (isCode_number _).append hroll
        | false => exact (isCode_number _).append hpick
      · rintro rfl
        rw [gain_cons, delta_number]
        rfl

end NamedStack
