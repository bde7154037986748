import NamedStack.Proofs.Peephole.Literals

/-!
# One application of a structural rule

All rules but three exchange runs of instructions for runs that do the same wherever the old ones
run to their end. One application of such a rule to a program that can be serialized leaves a
program that can be serialized, and that runs to the same end from the same stacks.
-/

namespace NamedStack

namespace Engine

/-- Load a script and run it to its end on given stacks. -/
def runFrom (valid : Checker) (main alt : Stack) (script : Bytes) : Except ExecError State :=
  (load script).bind (complete valid { main, alt })

/-- A script that fits runs as its pieces do. -/
theorem runFrom_forms_iff (valid : Checker) (main alt : Stack) {ps : List Script.Piece}
    (hf : ∀ p ∈ ps, p.fits) (hl : (Script.forms ps).length ≤ Script.maxLen) (t : State) :
    runFrom valid main alt (Script.forms ps) = .ok t ↔
      runPieces valid { main, alt } ps = .ok t ∧ t.conds = [] := by
  rw [runFrom, load_forms ps hf hl]
  change (run valid { main, alt } _).bind _ = _ ↔ _
  rw [run_tokens valid _ ps hf, bind_eq_ok_iff]
  constructor
  · rintro ⟨s, hs, ht⟩
    split at ht
    · next hc =>
      cases ht
      exact ⟨hs, hc⟩
    · cases ht
  · rintro ⟨ht, hc⟩
    exact ⟨t, ht, if_pos hc⟩

end Engine

namespace Peephole

open Engine

variable {new old : List Instr} {script : Bytes}

/-- A program that simulates one that can be serialized can be serialized, and its script runs to
the same end from the same stacks. -/
theorem Simulates.runs (h : Simulates old new) (hs : Script.serialize old = .ok script) :
    ∃ script', Script.serialize new = .ok script' ∧
      ∀ valid main alt t, runFrom valid main alt script = .ok t →
        ∃ t', runFrom valid main alt script' = .ok t' ∧ t'.main = t.main ∧ t'.alt = t.alt := by
  obtain ⟨ps, hw, rfl, hl, hf⟩ := (Script.serialize_eq_ok_iff old script).mp hs
  obtain ⟨qs, hqs, hlen, href⟩ := h ps ⟨hw, hf⟩
  have hl' := hlen.trans hl
  refine ⟨Script.forms qs, (Script.serialize_eq_ok_iff new _).mpr
    ⟨qs, hqs.writes, rfl, hl', hqs.fits⟩, ?_⟩
  intro valid main alt t ht
  obtain ⟨ht, hc⟩ := (runFrom_forms_iff valid main alt hf hl t).mp ht
  obtain ⟨t', ht', hwithin⟩ := href valid _ t ht
  exact ⟨t', (runFrom_forms_iff valid main alt hqs.fits hl' t').mpr
    ⟨ht', hwithin.conds.trans hc⟩, hwithin.main, hwithin.alt⟩

/-- Programs with references in them have no script, but what they are filled with may have one. -/
theorem Lifted.runs (h : Lifted Simulates old new) (hs : Script.serialize old = .ok script) :
    ∃ script', Script.serialize new = .ok script' ∧
      ∀ valid main alt t, runFrom valid main alt script = .ok t →
        ∃ t', runFrom valid main alt script' = .ok t' ∧ t'.main = t.main ∧ t'.alt = t.alt :=
  h.closed.runs hs

/-- The rules whose result need not run to the same end. -/
def unsoundNames : List String :=
  ["remove_null_arithmetic", "remove_trailing_verifications", "promote_return"]

/-- Every other rule is sound. -/
theorem sound_of_mem_rules {r : Rule} (hr : r ∈ rules) (hname : r.name ∉ unsoundNames) :
    r.Sound := by
  simp only [rules, List.mem_cons, List.not_mem_nil, or_false] at hr
  rcases hr with rfl | rfl | rfl | rfl | rfl | rfl | rfl | rfl | rfl | rfl | rfl | rfl | rfl
  · exact mergeVerify_sound
  · exact altStackOps_sound
  · exact stackOps_sound
  · exact arithmeticShortcuts_sound
  · exact conditionalShortcuts_sound
  · exact hashShortcuts_sound
  · exact absurd (by decide) hname
  · exact nullConditionals_sound
  · exact absurd (by decide) hname
  · exact arithmeticOps_sound
  · exact smallIntOpcodes_sound
  · exact absurd (by decide) hname
  · exact commutativeOperations_sound

/-- One application of a structural rule to a program that can be serialized leaves a program that
can be serialized; wherever the script of the old program runs to its end, the script of the new one
does so from the same stacks, and leaves the same stacks. -/
theorem apply_runs_to_same_end {r : Rule} (hr : r ∈ rules) (hname : r.name ∉ unsoundNames)
    {ops : List Instr} {script : Bytes} (hs : Script.serialize ops = .ok script) :
    ∃ script', Script.serialize (Step.instrs (r.apply (Step.ofList ops)).1) = .ok script' ∧
      ∀ valid main alt t, runFrom valid main alt script = .ok t →
        ∃ t', runFrom valid main alt script' = .ok t' ∧ t'.main = t.main ∧ t'.alt = t.alt := by
  have hsim := sound_of_mem_rules hr hname (Step.ofList ops)
  rw [Step.instrs_ofList] at hsim
  exact hsim.runs hs

/-- A rule that exchanges stack opcodes. -/
theorem apply_runs_to_same_end_over_over :
    stackOps ∈ rules ∧ stackOps.name ∉ unsoundNames ∧
      Script.serialize [.push [7, 7], .push [9, 9], .op .over, .op .over] =
        .ok [2, 7, 7, 2, 9, 9, 0x78, 0x78] ∧
      ∃ script', Script.serialize (Step.instrs (stackOps.apply (Step.ofList
          [.push [7, 7], .push [9, 9], .op .over, .op .over])).1) = .ok script' ∧
        ∃ t', runFrom .none [] [[5]] script' = .ok t' ∧
          t'.main = [[9, 9], [7, 7], [9, 9], [7, 7]] ∧ t'.alt = [[5]] := by
  have hmem : stackOps ∈ rules := .tail _ (.tail _ (.head _))
  have hname : stackOps.name ∉ unsoundNames := by decide
  have hs : Script.serialize [.push [7, 7], .push [9, 9], .op .over, .op .over] =
      .ok [2, 7, 7, 2, 9, 9, 0x78, 0x78] := by rfl
  obtain ⟨script', hs', hrun⟩ := apply_runs_to_same_end hmem hname hs
  have hend : runFrom .none [] [[5]] [2, 7, 7, 2, 9, 9, 0x78, 0x78] =
      .ok ⟨[[9, 9], [7, 7], [9, 9], [7, 7]], [[5]], [], 2⟩ := by cbv
  exact ⟨hmem, hname, hs, script', hs', hrun .none [] [[5]] _ hend⟩

end Peephole

end NamedStack
