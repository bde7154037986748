import NamedStack.Proofs.Peephole.Structural

/-!
# What optimized scripts accept

A spend is accepted if both scripts run to their ends and leave a true value on top. Dropping a
verification at the end does not leave the same stack, but it accepts wherever the verification did:
the value that was verified is then on top itself. So all rules but two accept what was accepted
before, and all but three do so exactly, wherever the old program runs to its end.
-/

namespace NamedStack

/-! ### Spends -/

namespace Engine

/-- The main stack that a signature script and the script of an output leave, if they run to their
ends. -/
def leaves (valid : Checker) (output sig : Bytes) : Except ExecError Stack := do
  if output.isEmpty && sig.isEmpty then .error .bothEmpty
  else
    let first ← load sig
    if !isPushOnly first then .error .notPushOnly
    else
      let second ← load output
      let s ← complete valid { main := [] } first
      let s ← complete valid { main := s.main } second
      return s.main

/-- A spend is judged by the stack that is left. -/
theorem spend_eq (valid : Checker) (output sig : Bytes) :
    spend valid output sig = (leaves valid output sig).bind judge := by
  unfold spend leaves
  split
  · rfl
  · cases load sig with
    | error e => rfl
    | ok first =>
      change (if _ then _ else _) = Except.bind (if _ then _ else _) judge
      split
      · rfl
      · cases load output with
        | error e => rfl
        | ok second =>
          change Except.bind (complete valid { main := [] } first) _ =
            Except.bind (Except.bind (complete valid { main := [] } first) _) judge
          cases complete valid { main := [] } first with
          | error e => rfl
          | ok s =>
            change Except.bind (complete valid { main := s.main } second) _ =
              Except.bind (Except.bind (complete valid { main := s.main } second) _) judge
            cases complete valid { main := s.main } second <;> rfl

private theorem spend_eq_ok_iff (valid : Checker) (output sig : Bytes) :
    spend valid output sig = .ok () ↔
      ∃ m, leaves valid output sig = .ok m ∧ judge m = .ok () := by
  rw [spend_eq, bind_eq_ok_iff]

/-- Whether a signature script only pushes, and leaves a stack. -/
def Signs (valid : Checker) (sig : Bytes) (main : Stack) : Prop :=
  ∃ ts s, load sig = .ok ts ∧ isPushOnly ts = true ∧ complete valid { main := [] } ts = .ok s ∧
    s.main = main

variable {main : Stack} {sig : Bytes} {valid : Checker}

private theorem Signs.unique {main' : Stack} (h : Signs valid sig main)
    (h' : Signs valid sig main') : main = main' := by
  obtain ⟨ts, s, hload, -, hs, rfl⟩ := h
  obtain ⟨ts', s', hload', -, hs', rfl⟩ := h'
  rw [hload] at hload'
  cases hload'
  rw [hs] at hs'
  cases hs'
  rfl

private theorem leaves_eq_ok_iff (valid : Checker) (output sig : Bytes) (m : Stack) :
    leaves valid output sig = .ok m ↔
      (output.isEmpty && sig.isEmpty) = false ∧ ∃ main t, Signs valid sig main ∧
        runFrom valid main [] output = .ok t ∧ t.main = m := by
  unfold leaves
  constructor
  · intro h
    split at h
    · cases h
    · next hempty =>
      obtain ⟨first, hfirst, h₁⟩ := bind_eq_ok_iff.mp h
      split at h₁
      · cases h₁
      · next hpush =>
        obtain ⟨second, hsecond, h₂⟩ := bind_eq_ok_iff.mp h₁
        obtain ⟨s, hs, h₃⟩ := bind_eq_ok_iff.mp h₂
        obtain ⟨t, ht, h₄⟩ := bind_eq_ok_iff.mp h₃
        cases h₄
        refine ⟨Bool.eq_false_iff.mpr hempty, s.main, t, ⟨first, s, hfirst, ?_, hs, rfl⟩, ?_, rfl⟩
        · simpa using hpush
        · exact bind_eq_ok_iff.mpr ⟨second, hsecond, ht⟩
  · rintro ⟨hempty, _, t, ⟨first, s, hfirst, hpush, hs, rfl⟩, hrun, rfl⟩
    obtain ⟨second, hsecond, ht⟩ := bind_eq_ok_iff.mp hrun
    rw [if_neg (Bool.eq_false_iff.mp hempty)]
    apply bind_eq_ok_iff.mpr ⟨first, hfirst, ?_⟩
    rw [if_neg (by simp [hpush])]
    exact bind_eq_ok_iff.mpr ⟨second, hsecond, bind_eq_ok_iff.mpr ⟨s, hs,
      bind_eq_ok_iff.mpr ⟨t, ht, rfl⟩⟩⟩

private theorem load_nil : load [] = .ok [] := load_forms [] nofun (Nat.zero_le _)

variable {output : Bytes} {t : State}

/-- Two empty scripts leave an empty stack, which is not accepted. -/
theorem not_isEmpty_of_runFrom (hsigns : Signs valid sig main)
    (hrun : runFrom valid main [] output = .ok t) (ht : judge t.main = .ok ()) :
    (output.isEmpty && sig.isEmpty) = false := by
  apply Bool.eq_false_iff.mpr
  intro hempty
  obtain ⟨houtput, hsig⟩ := (Bool.and_eq_true _ _).mp hempty
  obtain rfl := List.isEmpty_iff.mp houtput
  obtain rfl := List.isEmpty_iff.mp hsig
  obtain ⟨ts, s, hload, -, hs, rfl⟩ := hsigns
  rw [load_nil] at hload
  cases hload
  cases hs
  rw [runFrom, load_nil] at hrun
  cases hrun
  cases ht

private theorem spend_of_runFrom (hsigns : Signs valid sig main)
    (hrun : runFrom valid main [] output = .ok t) (ht : judge t.main = .ok ()) :
    spend valid output sig = .ok () := by
  refine (spend_eq_ok_iff valid output sig).mpr ⟨t.main, ?_, ht⟩
  exact (leaves_eq_ok_iff valid output sig _).mpr
    ⟨not_isEmpty_of_runFrom hsigns hrun ht, main, t, hsigns, hrun, rfl⟩

end Engine

namespace Peephole

open Script (Piece Written forms)
open Engine

/-! ### Programs that accept as much -/

/-- The new program can be written whenever the old one can; it is no longer, and accepts wherever
the old one accepts. -/
def Preserves (old new : List Instr) : Prop :=
  ∀ ps, Written old ps → ∃ qs, Written new qs ∧ (forms qs).length ≤ (forms ps).length ∧
    ∀ valid s t, runPieces valid s ps = .ok t → t.conds = [] → judge t.main = .ok () →
      ∃ t', runPieces valid s qs = .ok t' ∧ t'.conds = [] ∧ judge t'.main = .ok ()

namespace Preserves

/-- Preserving goes on over any number of changes. -/
theorem chains : Chains Preserves where
  refl := fun _ ps h => ⟨ps, h, Nat.le_refl _, fun _ _ t ht hc hj => ⟨t, ht, hc, hj⟩⟩
  trans := by
    intro a b c h k ps hps
    obtain ⟨qs, hqs, hlen, hacc⟩ := h ps hps
    obtain ⟨rs, hrs, hlen', hacc'⟩ := k qs hqs
    refine ⟨rs, hrs, hlen'.trans hlen, fun valid s t ht hc hj => ?_⟩
    obtain ⟨u, hu, hc, hj⟩ := hacc valid s t ht hc hj
    exact hacc' valid s u hu hc hj

variable {new old : List Instr}

/-- A program that simulates another one accepts wherever it does. -/
theorem of_simulates (h : Simulates old new) : Preserves old new := by
  intro ps hps
  obtain ⟨qs, hqs, hlen, href⟩ := h ps hps
  refine ⟨qs, hqs, hlen, fun valid s t ht hc hj => ?_⟩
  obtain ⟨t', ht', hwithin⟩ := href valid s t ht
  exact ⟨t', ht', hwithin.conds.trans hc, hwithin.main ▸ hj⟩

/-- A value that is verified at the end can as well be left there. -/
theorem drop_verify (ops : List Instr) : Preserves (ops ++ [.op .verify]) ops := by
  intro ps hps
  obtain ⟨qs, rs, rfl, hqs, hrs⟩ := hps.split
  obtain rfl := (Script.written_ops_iff [.verify] rs).mp hrs
  refine ⟨qs, hqs, by simp [Script.forms_append], fun valid s t ht hc hj => ?_⟩
  rw [runPieces_append] at ht
  obtain ⟨u, hu, hverify⟩ := bind_eq_ok_iff.mp ht
  obtain ⟨t₁, hstep, hnil⟩ := bind_eq_ok_iff.mp hverify
  cases hnil
  cases hr : u.running with
  | false =>
    -- code that does not run stands in a conditional, and none is open at the end
    obtain ⟨-, -, -, rfl⟩ := (stepPiece_plain_skipped valid rfl hr t).mp hstep
    rw [State.running, show u.conds = [] from hc] at hr
    cases hr
  | true =>
    obtain ⟨m, heffect, -, -, rfl⟩ := (stepPiece_plain valid rfl hr t).mp hstep
    refine ⟨u, hu, hc, ?_⟩
    change verify u.main = some m at heffect
    cases hmain : u.main with
    | nil => rw [hmain] at heffect; cases heffect
    | cons a rest =>
      rw [hmain, verify] at heffect
      split at heffect
      · next htrue => exact if_pos htrue
      · cases heffect

/-- The script of a program accepts every spend that the script of the one it preserves accepts. -/
theorem spends (h : Preserves old new) {script script' : Bytes}
    (hs : Script.serialize old = .ok script) (hs' : Script.serialize new = .ok script')
    {valid : Checker} {sig : Bytes} (hspend : spend valid script sig = .ok ()) :
    spend valid script' sig = .ok () := by
  obtain ⟨ps, hw, rfl, hl, hf⟩ := (Script.serialize_eq_ok_iff old script).mp hs
  obtain ⟨qs, hqs, hlen, hacc⟩ := h ps ⟨hw, hf⟩
  have hl' := hlen.trans hl
  have hnew := (Script.serialize_eq_ok_iff new _).mpr ⟨qs, hqs.writes, rfl, hl', hqs.fits⟩
  rw [hnew] at hs'
  cases hs'
  obtain ⟨_, hleaves, hj⟩ := (spend_eq_ok_iff valid _ sig).mp hspend
  obtain ⟨-, main, t, hsigns, hrun, rfl⟩ := (leaves_eq_ok_iff valid _ sig _).mp hleaves
  obtain ⟨ht, hc⟩ := (runFrom_forms_iff valid main [] hf hl t).mp hrun
  obtain ⟨t', ht', hc', hj'⟩ := hacc valid _ t ht hc hj
  exact spend_of_runFrom hsigns
    ((runFrom_forms_iff valid main [] hqs.fits hl' t').mpr ⟨ht', hc'⟩) hj'

end Preserves

/-- Where the script of a program runs to its end, the script of a program that simulates it accepts
exactly the same. -/
theorem Simulates.spends_iff {old new : List Instr} (h : Simulates old new) {script script' : Bytes}
    (hs : Script.serialize old = .ok script) (hs' : Script.serialize new = .ok script')
    {valid : Checker} {sig : Bytes} {m : Stack} (hleaves : leaves valid script sig = .ok m) :
    spend valid script' sig = .ok () ↔ spend valid script sig = .ok () := by
  refine ⟨fun hspend => ?_, (Preserves.of_simulates h).spends hs hs'⟩
  obtain ⟨script'', hs'', hruns⟩ := h.runs hs
  rw [hs''] at hs'
  cases hs'
  obtain ⟨-, main, t, hsigns, hrun, rfl⟩ := (leaves_eq_ok_iff valid _ sig _).mp hleaves
  obtain ⟨t', hrun', hmain, -⟩ := hruns valid main [] t hrun
  obtain ⟨_, hleaves', hj⟩ := (spend_eq_ok_iff valid _ sig).mp hspend
  obtain ⟨-, main', u, hsigns', hrun'', rfl⟩ := (leaves_eq_ok_iff valid _ sig _).mp hleaves'
  obtain rfl := hsigns.unique hsigns'
  rw [hrun''] at hrun'
  cases hrun'
  exact spend_of_runFrom hsigns hrun (hmain ▸ hj)

/-! ### Rules and passes -/

/-- The rules whose result need not accept what was accepted before. -/
def lossyNames : List String := ["remove_null_arithmetic", "promote_return"]

/-- What the drop of one verification at the end keeps is kept by the drop of all of them. -/
theorem withoutTrailingVerify_chains {R : List Step → List Step → Prop} (hR : Chains R)
    (hlast : ∀ steps s, s.instr = .op .verify → R (steps ++ [s]) steps) (steps : List Step) :
    R steps (withoutTrailingVerify steps) := by
  induction steps using List.reverseRecOn with
  | nil => exact hR.refl _
  | append_singleton steps s ih =>
    cases hs : isOp .verify s with
    | false =>
      rw [withoutTrailingVerify, List.reverse_append, List.reverse_singleton, List.singleton_append,
        List.dropWhile_cons_of_neg (by simp [hs]), List.reverse_cons, List.reverse_reverse]
      exact hR.refl _
    | true =>
      have hdrop : withoutTrailingVerify (steps ++ [s]) = withoutTrailingVerify steps := by
        rw [withoutTrailingVerify, List.reverse_append, List.reverse_singleton,
          List.singleton_append, List.dropWhile_cons_of_pos hs]
        rfl
      rw [hdrop]
      exact hR.trans (hlast steps s (eq_op_of_accepts hs)) ih

private theorem trailingVerifications_preserves (steps : List Step) :
    Lifted Preserves (Step.instrs steps) (Step.instrs (withoutTrailingVerify steps)) := by
  refine withoutTrailingVerify_chains (Lifted.chains Preserves.chains).onInstrs
    (fun steps s hs => ?_) steps
  have hlast : Step.instrs [s] = [.op .verify] := congrArg ([·]) hs
  rw [Step.instrs_append, hlast]
  refine ⟨by simp [openings], fun cs hcs => ?_⟩
  have hfill : fill (Step.instrs steps ++ [.op .verify]) (cs ++ []) =
      fill (Step.instrs steps) cs ++ fill [.op .verify] [] :=
    fill_append (by simpa [openings] using hcs)
  rw [List.append_nil, fill_nil] at hfill
  exact hfill ▸ Preserves.drop_verify _

/-- Every other rule leaves a program that accepts what was accepted before. -/
theorem preserves_of_mem_rules {r : Rule} (hr : r ∈ rules) (hname : r.name ∉ lossyNames)
    (steps : List Step) : Lifted Preserves (Step.instrs steps) (Step.instrs (r.apply steps).1) := by
  by_cases hsound : r.name ∈ unsoundNames
  · have htrailing : r = trailingVerifications := by
      simp only [rules, List.mem_cons, List.not_mem_nil, or_false] at hr
      rcases hr with rfl | rfl | rfl | rfl | rfl | rfl | rfl | rfl | rfl | rfl | rfl | rfl | rfl
      all_goals first | rfl | exact absurd hsound (by decide) | exact absurd (by decide) hname
    rw [htrailing]
    exact trailingVerifications_preserves steps
  · exact (sound_of_mem_rules hr hsound steps).mono fun _ _ => Preserves.of_simulates

/-- Apply given rules until the instructions stop changing, at most so many times. -/
def passesWith (rs : List Rule) : Nat → List Step → List Step
  | 0, steps => steps
  | n + 1, steps =>
    let out := rs.foldl (fun acc r => (r.apply acc).1) steps
    if Step.instrs out = Step.instrs steps then out else passesWith rs n out

/-- Optimize a program by given rules. -/
def Optimizer.runWith (o : Optimizer) (rs : List Rule) (steps : List Step) : List Step :=
  if o.enabled then passesWith rs o.maxPasses steps else steps

/-- Whether the rules of some names make no difference to a program. -/
def Optimizer.Idle (o : Optimizer) (names : List String) (steps : List Step) : Prop :=
  Step.instrs (o.run steps) =
    Step.instrs (o.runWith (rules.filter fun r => r.name ∉ names) steps)

instance (o : Optimizer) (names : List String) : DecidablePred (o.Idle names) :=
  fun _ => inferInstanceAs (Decidable (_ = _))

section

variable {R : List Step → List Step → Prop} {rs : List Rule}

/-- What every rule keeps is kept by the application of all of them. -/
theorem foldl_chains (hR : Chains R) (h : ∀ r ∈ rs, ∀ steps, R steps (r.apply steps).1)
    (steps : List Step) : R steps (rs.foldl (fun acc r => (r.apply acc).1) steps) := by
  induction rs generalizing steps with
  | nil => exact hR.refl _
  | cons r rs ih =>
    obtain ⟨hr, hrs⟩ := List.forall_mem_cons.mp h
    exact hR.trans (hr steps) (ih hrs _)

/-- What every rule keeps is kept by the optimizer. -/
theorem Optimizer.runWith_chains (hR : Chains R) (h : ∀ r ∈ rs, ∀ steps, R steps (r.apply steps).1)
    (o : Optimizer) (steps : List Step) : R steps (o.runWith rs steps) := by
  have hpasses (n : Nat) (steps : List Step) : R steps (passesWith rs n steps) := by
    induction n generalizing steps with
    | zero => exact hR.refl _
    | succ n ih =>
      have hpass := foldl_chains hR h steps
      rw [passesWith]
      split
      · exact hpass
      · exact hR.trans hpass (ih _)
  unfold runWith
  split
  · exact hpasses _ steps
  · exact hR.refl _

end

/-- The optimizer applies all rules. -/
theorem Optimizer.runWith_rules (o : Optimizer) (steps : List Step) :
    o.runWith rules steps = o.run steps := by
  have hpasses (n : Nat) (steps : List Step) : passesWith rules n steps = passes n steps := by
    induction n generalizing steps with
    | zero => rfl
    | succ n ih =>
      rw [passesWith, passes, ih]
      rfl
  rw [runWith, run, hpasses]

variable {o : Optimizer} {steps : List Step}

/-- Where the unsound rules are idle, an optimized program simulates the one it is made from. -/
theorem Optimizer.Idle.simulates (h : o.Idle unsoundNames steps) :
    Lifted Simulates (Step.instrs steps) (Step.instrs (o.run steps)) := by
  rw [h]
  refine runWith_chains (Lifted.chains Simulates.congruent.toChains).onInstrs
    (fun r hr => ?_) o steps
  obtain ⟨hmem, hname⟩ := List.mem_filter.mp hr
  exact sound_of_mem_rules hmem (by simpa using hname)

/-- Where the lossy rules are idle, an optimized program accepts what the one it is made from
accepts. -/
theorem Optimizer.Idle.preserves (h : o.Idle lossyNames steps) :
    Lifted Preserves (Step.instrs steps) (Step.instrs (o.run steps)) := by
  rw [h]
  refine runWith_chains (Lifted.chains Preserves.chains).onInstrs (fun r hr => ?_) o steps
  obtain ⟨hmem, hname⟩ := List.mem_filter.mp hr
  exact preserves_of_mem_rules hmem (by simpa using hname)

end Peephole

end NamedStack
