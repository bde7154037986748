import NamedStack.Template
import NamedStack.Proofs.Context.Arms

/-!
# Nesting of conditionals

Whether the conditionals of a program are balanced depends on its markers alone. They can be
followed with a list of the arms that are open, where it matters only which arm of its conditional
each of them is: a second arm cannot be split again.
-/

namespace NamedStack

/-- The arms of a conditional. -/
inductive Arm where
  | first
  | second
  deriving DecidableEq, Repr

namespace Nesting

/-- Go past an instruction with the open arms from the inside out; nothing if a marker has no arm
that it could end. -/
def step (arms : List Arm) : Instr → Option (List Arm)
  | .op .opIf | .op .opNotIf => some (.first :: arms)
  | .op .opElse =>
    match arms with
    | .first :: arms => some (.second :: arms)
    | _ => none
  | .op .opEndIf => arms.tail?
  | _ => some arms

/-- Go past instructions. -/
def run (arms : List Arm) (ops : List Instr) : Option (List Arm) := ops.foldlM step arms

/-- The first instruction, and then the rest. -/
theorem run_cons (arms : List Arm) (i : Instr) (rest : List Instr) :
    run arms (i :: rest) = (step arms i).bind fun arms => run arms rest := rfl

/-- One program, and then another. -/
theorem run_append (arms : List Arm) (front back : List Instr) :
    run arms (front ++ back) = (run arms front).bind fun arms => run arms back :=
  List.foldlM_append

/-- Only markers change the open arms. -/
theorem step_of_notMarker {i : Instr} (h : Matcher.notMarker.accepts i = true) (arms : List Arm) :
    step arms i = some arms := by
  unfold step
  split <;> first | rfl | cases h

/-- The markers of a program. -/
def markers (ops : List Instr) : List Instr := ops.filter fun i => !Matcher.notMarker.accepts i

/-- Only the markers count. -/
theorem run_markers (arms : List Arm) (ops : List Instr) :
    run arms (markers ops) = run arms ops := by
  induction ops generalizing arms with
  | nil => rfl
  | cons i rest ih =>
    by_cases hi : Matcher.notMarker.accepts i = true
    · rw [markers, List.filter_cons_of_neg (by simp [hi]), run_cons, step_of_notMarker hi]
      exact ih arms
    · rw [markers, List.filter_cons_of_pos (by simp [hi]), run_cons, run_cons]
      exact congrArg _ (funext ih)

/-! ### Branches -/

/-- The open arms at a height. -/
def ofHeights (h : Heights) : List Arm :=
  h.levels.map fun l => if l.arm.isSome then .second else .first

private theorem map_step (h : Heights) (s : Step) :
    (h.step s).map ofHeights = step (ofHeights h) s.instr := by
  unfold Heights.step
  split
  · next hi => rw [hi]; rfl
  · next hi => rw [hi]; rfl
  · next hi =>
    rw [hi]
    obtain ⟨now, _ | ⟨⟨entry, _ | arm⟩, ls⟩⟩ := h <;> rfl
  · next hi =>
    rw [hi]
    obtain ⟨now, _ | ⟨l, ls⟩⟩ := h <;> rfl
  · next hif hnotIf helse hendIf =>
    rw [step]
    · rfl
    · exact hif
    · exact hnotIf
    · exact helse
    · exact hendIf

private theorem map_run (h : Heights) (steps : List Step) :
    (h.run steps).map ofHeights = run (ofHeights h) (Step.instrs steps) := by
  induction steps generalizing h with
  | nil => rfl
  | cons s rest ih =>
    rw [Heights.run_cons, Step.instrs, List.map_cons, run_cons, ← map_step]
    cases h.step s with
    | none => rfl
    | some h' => exact ih h'

/-- Whether a program has branches: every marker has an arm to end, and no arm stays open. -/
def Balanced (ops : List Instr) : Prop := ∃ bs, Branch.ofInstrs ops = .ok bs

/-- A program is balanced if no arm is open at its end. -/
theorem balanced_iff (ops : List Instr) : Balanced ops ↔ run [] ops = some [] := by
  have hinstrs : Step.instrs (Step.ofList ops) = ops := Step.instrs_ofList ops
  have hzero : EndsFree (Step.ofList ops) := endsFree_of_genuine (Step.genuine_ofList ops)
  have hagrees := (Branch.Scan.agrees_start (fun _ _ _ => True) (deltaAt (Step.ofList ops)) 0).run
    (Step.ofList ops) (fun i st hi => by rw [Nat.zero_add, deltaAt, hi]; rfl) hzero
    fun _ _ _ _ _ _ _ _ _ _ => trivial
  have hrun := map_run { now := 0 } (Step.ofList ops)
  rw [hinstrs] at hagrees hrun
  constructor
  · rintro ⟨bs, hbs⟩
    obtain ⟨s, hs, hopen, -⟩ := (Branch.ofInstrs_eq_ok_iff _ _).mp hbs
    rw [hs] at hagrees
    cases hh : Heights.run { now := 0 } (Step.ofList ops) with
    | none =>
      rw [hh] at hagrees
      exact hagrees.elim
    | some h =>
      rw [hh] at hagrees hrun
      have hlevels := hagrees.levels
      rw [hopen, List.forall₂_nil_left_iff] at hlevels
      rw [Option.map_some, ofHeights, hlevels] at hrun
      exact hrun.symm
  · intro hout
    rw [show ofHeights { now := 0 } = [] from rfl, hout, Option.map_eq_some_iff] at hrun
    obtain ⟨h, hh, hlevels⟩ := hrun
    rw [← hinstrs]
    exact Context.exists_branches hzero hh (List.map_eq_nil_iff.mp hlevels)

end Nesting

end NamedStack
