import NamedStack.Proofs.Peephole.Weight
import NamedStack.Proofs.Resolve.Session

/-!
# What measures of a program depend on

References, inner scripts and calls are open instructions, so that every measure of them is the same
for programs with the same open instructions, and code has none. Inner scripts weigh what the
optimizer may still take from them; this is less than the slack that is allowed for it.
-/

namespace NamedStack.Measure

open Peephole (openings weight)

variable {d n : Nat} {a b ops : List Instr} {blocks : List (List Instr)}

/-! ### Sums and maxima -/

private theorem referencesList_eq_sum (ops : List Instr) :
    referencesList ops = (ops.map references).sum := by
  induction ops with
  | nil => rfl
  | cons i ops ih => simp [referencesList, ih]

/-- A program has no references if none of its instructions has one. -/
theorem referencesList_eq_zero_iff : referencesList ops = 0 ↔ ∀ i ∈ ops, references i = 0 := by
  rw [referencesList_eq_sum, List.sum_eq_zero_iff, List.forall_mem_map]

/-- Calls are no higher than in each instruction. -/
theorem callHeightList_le_iff : callHeightList ops ≤ n ↔ ∀ i ∈ ops, callHeight i ≤ n := by
  induction ops with
  | nil => simp [callHeightList]
  | cons i ops ih => simp [callHeightList, ih]

/-- Calls are no higher than in each block. -/
theorem callHeightBlocks_le_iff :
    callHeightBlocks blocks ≤ n ↔ ∀ ops ∈ blocks, callHeightList ops ≤ n := by
  induction blocks with
  | nil => simp [callHeightBlocks]
  | cons ops blocks ih => simp [callHeightBlocks, ih]

/-- Scripts are no deeper than in each instruction. -/
theorem nestingList_le_iff : nestingList d ops ≤ n ↔ ∀ i ∈ ops, nesting d i ≤ n := by
  induction ops with
  | nil => simp [nestingList]
  | cons i ops ih => simp [nestingList, ih]

/-- Scripts are no deeper than in each block. -/
theorem nestingBlocks_le_iff :
    nestingBlocks d blocks ≤ n ↔ ∀ ops ∈ blocks, nestingList d ops ≤ n := by
  induction blocks with
  | nil => simp [nestingBlocks]
  | cons ops blocks ih => simp [nestingBlocks, ih]

/-- Bodies of functions are nested no deeper than their calls allow. -/
theorem nestingList_le_bodyNesting {bodies : List (List Instr)} {body : List Instr}
    (h : body ∈ bodies) (k : Nat) :
    nestingList (bodyNesting bodies k) body ≤ bodyNesting bodies (k + 1) := by
  have hmax (l : List Nat) (z : Nat) : z ≤ l.foldl max z ∧ ∀ x ∈ l, x ≤ l.foldl max z := by
    induction l generalizing z with
    | nil => exact ⟨Nat.le_refl z, nofun⟩
    | cons y l ih =>
      obtain ⟨hz, hl⟩ := ih (max z y)
      exact ⟨(Nat.le_max_left z y).trans hz,
        List.forall_mem_cons.mpr ⟨(Nat.le_max_right z y).trans hz, hl⟩⟩
  exact (hmax _ 0).2 _ (List.mem_map_of_mem h)

/-! ### Weights of inner scripts -/

mutual

/-- The weight of the inner scripts in an instruction, at any depth. -/
def potential : Instr → Nat
  | .inner ops => weight ops + potentialList ops
  | _ => 0

/-- The weight of the inner scripts in a program, at any depth. -/
def potentialList : List Instr → Nat
  | [] => 0
  | i :: rest => potential i + potentialList rest

end

private theorem potentialList_eq_sum (ops : List Instr) :
    potentialList ops = (ops.map potential).sum := by
  induction ops with
  | nil => rfl
  | cons i ops ih => simp [potentialList, ih]

/-- The potential of programs one after another. -/
theorem potentialList_append (a b : List Instr) :
    potentialList (a ++ b) = potentialList a + potentialList b := by
  simp [potentialList_eq_sum]

mutual

/-- There is more slack than the inner scripts in an instruction weigh. -/
theorem potential_le_slack : ∀ i : Instr, potential i ≤ slack i
  | .inner ops => by
    have hweight := Peephole.weight_le ops
    have hrest := potentialList_le_slackList ops
    simp only [potential, slack]
    omega
  | .op _ | .push _ | .assume _ | .assign _ | .var _ | .call _ _ => by simp [potential]

/-- There is more slack than the inner scripts in a program weigh. -/
theorem potentialList_le_slackList : ∀ ops : List Instr, potentialList ops ≤ slackList ops
  | [] => Nat.le_refl _
  | i :: rest => Nat.add_le_add (potential_le_slack i) (potentialList_le_slackList rest)

end

/-! ### Open instructions -/

private theorem sum_openings {f : Instr → Nat} (hf : ∀ i : Instr, i.isOpen = false → f i = 0)
    (ops : List Instr) : ((openings ops).map f).sum = (ops.map f).sum := by
  induction ops with
  | nil => rfl
  | cons i ops ih =>
    cases hi : i.isOpen with
    | false => simpa [openings, hi, hf i hi] using ih
    | true => simpa [openings, hi] using ih

variable {i : Instr}

/-- Only what is open has references. -/
theorem references_of_isOpen (h : i.isOpen = false) : references i = 0 := by
  cases i with
  | op | push => simp [references]
  | _ => cases h

private theorem potential_of_isOpen (h : i.isOpen = false) : potential i = 0 := by
  cases i with
  | op | push => simp [potential]
  | _ => cases h

/-- Only what is open has inner scripts. -/
theorem nesting_of_isOpen (h : i.isOpen = false) : nesting d i = 0 := by
  cases i with
  | op | push => simp [nesting]
  | _ => cases h

/-- References only need what is open. -/
theorem referencesList_congr (h : openings b = openings a) :
    referencesList b = referencesList a := by
  have hsum := sum_openings (f := references) fun _ => references_of_isOpen
  rw [referencesList_eq_sum, referencesList_eq_sum, ← hsum b, ← hsum a, h]

/-- The potential only needs what is open. -/
theorem potentialList_congr (h : openings b = openings a) : potentialList b = potentialList a := by
  have hsum := sum_openings (f := potential) fun _ => potential_of_isOpen
  rw [potentialList_eq_sum, potentialList_eq_sum, ← hsum b, ← hsum a, h]

end NamedStack.Measure
