import NamedStack.Proofs.Context.Nesting
import NamedStack.Proofs.Peephole.Exchange

/-!
# Markers under exchanges

An exchange keeps conditionals balanced if, wherever the markers of the old run have arms to end,
those of the new one have, and the same arms are open behind them. Most exchanges do not touch a
marker. Those that do turn a conditional around, or leave out an arm or a conditional without
content.
-/

namespace NamedStack.Peephole

open Nesting (markers)

/-- Wherever the markers of the old program have their arms, those of the new one do, and leave the
same arms open. -/
def Nests (old new : List Step) : Prop :=
  ∀ arms out, Nesting.run arms (Step.instrs old) = some out →
    Nesting.run arms (Step.instrs new) = some out

/-- The forms that exchange markers. -/
def markerForms : List (List Opcode × List Opcode) :=
  [([.unary .not, .opIf], [.opNotIf]), ([.opElse, .opEndIf], [.opEndIf]),
    ([.opIf, .opEndIf], [.drop])]

/-- Whether opcodes nest as others do: they have the same markers, or take the place of the others
in a form that exchanges markers. -/
def SameNesting (before after : List Opcode) : Prop :=
  after.filter Opcode.isMarker = before.filter Opcode.isMarker ∨ (before, after) ∈ markerForms

instance (before after : List Opcode) : Decidable (SameNesting before after) :=
  inferInstanceAs (Decidable (_ ∨ _))

/-- The markers of programs one after another. -/
@[simp]
theorem markers_append (a b : List Instr) : markers (a ++ b) = markers a ++ markers b :=
  List.filter_append a b

/-- Opcodes have the markers among them. -/
theorem markers_ops (os : List Opcode) :
    markers (os.map .op) = (os.filter Opcode.isMarker).map .op := by
  rw [markers, List.filter_map]
  congr 2
  funext o
  exact Bool.not_not o.isMarker

private theorem run_markerForms :
    ∀ p ∈ markerForms, ∀ arms out, Nesting.run arms (p.1.map .op) = some out →
      Nesting.run arms (p.2.map .op) = some out := by
  simp only [markerForms, List.forall_mem_cons]
  refine ⟨fun arms out hold => hold, fun arms out hold => ?_, fun arms out hold => hold, nofun⟩
  -- only a first arm can be split, and the end takes either arm
  match arms with
  | .first :: arms => exact hold

namespace Nests

/-- Nesting is kept by what stands around. -/
theorem congruent : Congruent Nests where
  refl := fun _ _ _ => id
  trans := fun _ _ _ h k arms out => k arms out ∘ h arms out
  append := by
    intro old new h front back arms out hold
    simp only [Step.instrs_append, Nesting.run_append, Option.bind_eq_some_iff] at hold ⊢
    obtain ⟨behind, ⟨inside, hfront, hrun⟩, hback⟩ := hold
    exact ⟨behind, ⟨inside, hfront, h inside behind hrun⟩, hback⟩

/-- The same markers nest in the same way. -/
theorem of_markers {old new : List Step}
    (h : markers (Step.instrs new) = markers (Step.instrs old)) : Nests old new := by
  intro arms out hold
  rwa [← Nesting.run_markers, h, Nesting.run_markers]

/-- Opcodes that nest as those of a run. -/
theorem of_ops {run : List Step} {before after : List Opcode}
    (hrun : Step.instrs run = before.map .op) (h : SameNesting before after) :
    Nests run (after.map Step.op) := by
  rcases h with h | h
  · exact of_markers (by rw [instrs_ops, hrun, markers_ops, markers_ops, h])
  · intro arms out hold
    rw [hrun] at hold
    rw [instrs_ops]
    exact run_markerForms _ h arms out hold

/-- Balanced conditionals stay so. -/
theorem balanced {old new : List Step} (h : Nests old new)
    (hold : Nesting.Balanced (Step.instrs old)) : Nesting.Balanced (Step.instrs new) := by
  rw [Nesting.balanced_iff] at hold ⊢
  exact h [] [] hold

end Nests

end NamedStack.Peephole
