import NamedStack.Proofs.Peephole.Weight
import NamedStack.Proofs.Script.Decoding

/-!
# Putting a return in front

A return ends a run as a failure where it is reached, and does nothing in an arm that is not taken.
Put in front of the program it is reached in every run, so a program that returns anywhere accepts
nothing any more. Where a return stands outside of all conditionals this is no loss, since every run
reaches it or fails before. Where all returns stand in arms, what is accepted without taking those
arms is lost.
-/

namespace NamedStack

namespace Engine

open Script (Piece Writes)

variable {valid : Checker} {s t : State}

/-- Run a script to its end on given stacks and judge what it leaves. -/
def verdict (valid : Checker) (main alt : Stack) (script : Bytes) : Except ExecError Unit :=
  (runFrom valid main alt script).bind fun t => judge t.main

/-! ### Conditionals that are open in a run -/

variable {o : Opcode} {ps : List Piece}

private theorem conds_of_exec (ho : o.isMarker = false) (h : exec valid o s = .ok t) :
    t.conds = s.conds := by
  cases hr : s.running with
  | false =>
    rw [exec_skipped valid ho hr] at h
    cases h
    rfl
  | true =>
    by_cases hplain : o.isPlain = true
    · obtain ⟨m, -, rfl⟩ := (exec_plain_iff valid hplain hr t).mp h
      rfl
    · have hmultisig (hm : o = .checkMultiSig ∨ o = .checkMultiSigVerify) : t.conds = s.conds := by
        rw [exec_multisig valid hm hr] at h
        split at h
        · cases h
        · obtain ⟨u, hu, h⟩ := bind_eq_ok_iff.mp h
          obtain ⟨m, -, rfl⟩ := (onMain_iff _ u t).mp h
          unfold State.count at hu
          split at hu
          · cases hu
          · cases hu
            rfl
      cases o with
      | toAltStack =>
        obtain ⟨a, main, -, rfl⟩ := (exec_toAltStack_iff valid hr t).mp h
        rfl
      | fromAltStack =>
        obtain ⟨a, alt, -, rfl⟩ := (exec_fromAltStack_iff valid hr t).mp h
        rfl
      | checkMultiSig => exact hmultisig (.inl rfl)
      | checkMultiSigVerify => exact hmultisig (.inr rfl)
      | opIf | opNotIf | opElse | opEndIf => cases ho
      | _ => exact absurd rfl hplain

private theorem length_conds_openCond {test : Bytes → Bool} (h : s.openCond test = .ok t) :
    t.conds.length = s.conds.length + 1 := by
  cases hr : s.running with
  | false =>
    rw [openCond_skipped hr] at h
    cases h
    rfl
  | true =>
    obtain ⟨a, main, -, rfl⟩ := (openCond_iff hr test t).mp h
    rfl

variable {arms arms' : List Arm}

private theorem length_conds_exec (hstep : Nesting.step arms (.op o) = some arms')
    (hs : s.conds.length = arms.length) (h : exec valid o s = .ok t) :
    t.conds.length = arms'.length := by
  by_cases ho : o.isMarker = true
  · cases o with
    | opIf =>
      cases hstep
      rw [length_conds_openCond h, hs, List.length_cons]
    | opNotIf =>
      cases hstep
      rw [length_conds_openCond h, hs, List.length_cons]
    | opElse =>
      obtain ⟨c, conds, hc, rfl⟩ := (flip_iff s t).mp h
      rw [hc] at hs
      -- only a first arm can be split
      obtain _ | ⟨_ | _, arms⟩ := arms
      · cases hstep
      · cases hstep
        exact hs
      · cases hstep
    | opEndIf =>
      obtain ⟨c, conds, hc, rfl⟩ := (close_iff s t).mp h
      cases arms with
      | nil => cases hstep
      | cons a arms =>
        cases hstep
        rw [hc] at hs
        exact Nat.succ.inj hs
    | _ => cases ho
  · have ho := Bool.eq_false_of_not_eq_true ho
    rw [Nesting.step_of_notMarker (by simp [Matcher.accepts, ho])] at hstep
    cases hstep
    rw [conds_of_exec ho h, hs]

private theorem length_conds_act {i : Instr} {p : Piece} (hi : Writes i p)
    (hstep : Nesting.step arms i = some arms') (hs : s.conds.length = arms.length)
    (h : act valid s p = .ok t) : t.conds.length = arms'.length := by
  cases i with
  | op o =>
    cases hi
    exact length_conds_exec hstep hs h
  | _ =>
    obtain ⟨o, ho, -⟩ | ⟨d, -, rfl⟩ := Script.writes_cases hi
    · cases ho
    · cases hstep
      cases h
      split <;> exact hs

/-- A run opens and closes conditionals as its program opens and closes arms. -/
theorem length_conds_runPieces {ops : List Instr} (hw : List.Forall₂ Writes ops ps)
    (hops : Nesting.run arms ops = some arms') (hs : s.conds.length = arms.length)
    (h : runPieces valid s ps = .ok t) : t.conds.length = arms'.length := by
  induction hw generalizing s arms with
  | nil =>
    cases h
    cases hops
    exact hs
  | @cons i p ops ps hi _ ih =>
    obtain ⟨u, hu, h⟩ := bind_eq_ok_iff.mp h
    obtain ⟨between, hstep, hops⟩ := Option.bind_eq_some_iff.mp hops
    refine ih hops ?_ h
    obtain ⟨-, -, hact, -⟩ := (stepPiece_eq_ok_iff valid s u p).mp hu
    exact length_conds_act hi hstep (by exact hs) hact

/-- No run goes past a return that it reaches. -/
theorem stepPiece_opReturn_ne_ok (hr : s.running = true) :
    stepPiece valid s (.opcode .opReturn) ≠ .ok t := by
  intro h
  obtain ⟨m, he, -⟩ := (stepPiece_plain valid rfl hr t).mp h
  cases he

private theorem verdict_eq_ok_iff (main alt : Stack) (hf : ∀ p ∈ ps, p.fits)
    (hl : (Script.forms ps).length ≤ Script.maxLen) :
    verdict valid main alt (Script.forms ps) = .ok () ↔
      ∃ t, runPieces valid { main, alt } ps = .ok t ∧ t.conds = [] ∧ judge t.main = .ok () := by
  rw [verdict, bind_eq_ok_iff]
  simp only [runFrom_forms_iff valid main alt hf hl, and_assoc]

end Engine

namespace Peephole

open Script (Piece Writes Written forms)
open Engine

/-- Whether a return stands outside of all conditionals. -/
def ReturnsOutside (ops : List Instr) : Prop :=
  ∃ front back, ops = front ++ .op .opReturn :: back ∧ Nesting.run [] front = some []

variable {ops : List Instr} {ps : List Piece}

/-- A program with a return outside of all conditionals does not run to its end. -/
theorem ReturnsOutside.runPieces_ne_ok (h : ReturnsOutside ops) (hw : List.Forall₂ Writes ops ps)
    (valid : Checker) (main alt : Stack) (t : State) :
    runPieces valid { main, alt } ps ≠ .ok t := by
  intro ht
  obtain ⟨front, back, rfl, hfront⟩ := h
  obtain ⟨fs, rest, rfl, hfs, hrest⟩ := forall₂_append_left hw
  obtain ⟨p, bs, hp, -, rfl⟩ := List.forall₂_cons_left_iff.mp hrest
  cases hp
  rw [runPieces_append] at ht
  obtain ⟨u, hu, ht⟩ := bind_eq_ok_iff.mp ht
  obtain ⟨w, hw, -⟩ := bind_eq_ok_iff.mp ht
  have hconds : u.conds = [] :=
    List.eq_nil_of_length_eq_zero (length_conds_runPieces hfs hfront rfl hu)
  refine stepPiece_opReturn_ne_ok ?_ hw
  rw [State.running, hconds]

/-- A program that returns anywhere comes to return at once. -/
theorem exists_promotedReturn {steps : List Step} (h : .op .opReturn ∈ Step.instrs steps) :
    ∃ rest, Step.instrs (promotedReturn.apply steps).1 = .op .opReturn :: rest := by
  obtain ⟨s, hs, hinstr⟩ := List.mem_map.mp h
  obtain ⟨i, hi⟩ := List.getElem?_of_mem hs
  have hmem : i ∈ Template.positions (.op .opReturn) steps := by
    refine List.mem_map.mpr ⟨(s, i), List.mem_filter.mpr ⟨?_, ?_⟩, rfl⟩
    · exact List.mem_zipIdx_iff_getElem?.mpr hi
    · rw [hinstr]
      rfl
  change ∃ rest, Step.instrs (Action.apply .promoteReturn steps).1 = _
  rw [Action.apply]
  split
  · next hnil =>
    rw [hnil] at hmem
    cases hmem
  · next hzero =>
    rw [hzero, List.mem_singleton] at hmem
    rw [hmem, ← List.head?_eq_getElem?] at hi
    obtain ⟨rest, rfl⟩ := List.head?_eq_some_iff.mp hi
    exact ⟨Step.instrs rest, congrArg (· :: _) hinstr⟩
  · next hnil hzero =>
    rw [returningFirst]
    split
    · exact absurd ‹_› hnil
    · exact absurd ‹_› hzero
    · exact ⟨_, rfl⟩

private theorem exists_written_sublist {ops' : List Instr} (hsub : ops'.Sublist ops)
    (hw : Written ops ps) : ∃ qs, qs.Sublist ps ∧ Written ops' qs := by
  induction hsub generalizing ps with
  | slnil => exact ⟨ps, .refl ps, hw⟩
  | cons i _ ih =>
    obtain ⟨p, rest, rfl, -, -, hrest⟩ := (Script.written_cons_iff _ _ _).mp hw
    obtain ⟨qs, hqs, hw⟩ := ih hrest
    exact ⟨qs, hqs.cons p, hw⟩
  | cons_cons i _ ih =>
    obtain ⟨p, rest, rfl, hp, hf, hrest⟩ := (Script.written_cons_iff _ _ _).mp hw
    obtain ⟨qs, hqs, hw⟩ := ih hrest
    exact ⟨p :: qs, hqs.cons_cons p, (Script.written_cons_iff _ _ _).mpr ⟨p, qs, rfl, hp, hf, hw⟩⟩

/-- The return in front takes the place of one that stood in the program. -/
theorem exists_written_promotedReturn (hw : Written ops ps) :
    ∃ qs, Written (Step.instrs (promotedReturn.apply (Step.ofList ops)).1) qs ∧
      (forms qs).length ≤ (forms ps).length := by
  rcases promotedReturn_cases (Step.ofList ops) with happly | ⟨hlate, happly⟩
  · rw [happly, Step.instrs_ofList]
    exact ⟨ps, hw, Nat.le_refl _⟩
  · rw [happly, instrs_return_cons, Step.instrs_ofList]
    rw [Step.instrs_ofList] at hlate
    obtain ⟨front, back, rfl⟩ := List.append_of_mem (List.mem_of_mem_tail hlate)
    obtain ⟨fs, rest, rfl, hfs, hrest⟩ := hw.split
    obtain ⟨p, bs, rfl, hp, hf, hbs⟩ := (Script.written_cons_iff _ _ _).mp hrest
    cases hp
    have hsub : ((front ++ .op .opReturn :: back).filter fun i =>
        !(Matcher.op .opReturn).accepts i).Sublist (front ++ back) := by
      rw [List.filter_append, List.filter_cons_of_neg (by decide), ← List.filter_append]
      exact List.filter_sublist
    obtain ⟨qs, hqs, hw⟩ := exists_written_sublist hsub (hfs.append hbs)
    refine ⟨.opcode .opReturn :: qs, ?_, ?_⟩
    · exact (Script.written_cons_iff _ _ _).mpr ⟨_, qs, rfl, rfl, trivial, hw⟩
    · have hlen : (forms qs).length ≤ (forms (fs ++ bs)).length := (hqs.flatMap _).length_le
      simp only [forms, List.flatMap_append, List.flatMap_cons, List.length_append] at hlen ⊢
      omega

/-- One application of the rule to a program that can be serialized leaves a program that can be
serialized. Its script accepts what the old one accepts if the program has no return, and nothing
otherwise. So nothing is lost if a program that returns anywhere returns outside of all
conditionals. -/
theorem promotedReturn_accepts_iff {script : Bytes} (hs : Script.serialize ops = .ok script) :
    ∃ script', Script.serialize (Step.instrs (promotedReturn.apply (Step.ofList ops)).1) =
        .ok script' ∧
      (∀ valid main alt, verdict valid main alt script' = .ok () ↔
        verdict valid main alt script = .ok () ∧ .op .opReturn ∉ ops) ∧
      ((.op .opReturn ∈ ops → ReturnsOutside ops) → ∀ valid main alt,
        verdict valid main alt script = .ok () → verdict valid main alt script' = .ok ()) := by
  obtain ⟨ps, hw, rfl, hl, hf⟩ := (Script.serialize_eq_ok_iff ops script).mp hs
  obtain ⟨qs, hqs, hlen⟩ := exists_written_promotedReturn ⟨hw, hf⟩
  have hl' := hlen.trans hl
  have hs' := (Script.serialize_eq_ok_iff _ _).mpr ⟨qs, hqs.writes, rfl, hl', hqs.fits⟩
  have hiff (valid : Checker) (main alt : Stack) :
      verdict valid main alt (forms qs) = .ok () ↔
        verdict valid main alt (forms ps) = .ok () ∧ .op .opReturn ∉ ops := by
    by_cases hmem : .op .opReturn ∈ ops
    · have hsteps : .op .opReturn ∈ Step.instrs (Step.ofList ops) := by rwa [Step.instrs_ofList]
      obtain ⟨rest, hrest⟩ := exists_promotedReturn hsteps
      have hfirst : ReturnsOutside (Step.instrs (promotedReturn.apply (Step.ofList ops)).1) :=
        ⟨[], rest, hrest, rfl⟩
      refine iff_of_false (fun hok => ?_) fun h => h.2 hmem
      obtain ⟨t, ht, -⟩ := (verdict_eq_ok_iff main alt hqs.fits hl').mp hok
      exact hfirst.runPieces_ne_ok hqs.writes valid main alt t ht
    · have happly : Step.instrs (promotedReturn.apply (Step.ofList ops)).1 = ops := by
        rcases promotedReturn_cases (Step.ofList ops) with happly | ⟨hlate, -⟩
        · rw [happly, Step.instrs_ofList]
        · rw [Step.instrs_ofList] at hlate
          exact absurd (List.mem_of_mem_tail hlate) hmem
      rw [happly, hs] at hs'
      rw [← Except.ok.inj hs', and_iff_left hmem]
  refine ⟨forms qs, hs', hiff, fun hout valid main alt hok => ?_⟩
  refine (hiff valid main alt).mpr ⟨hok, fun hmem => ?_⟩
  obtain ⟨t, ht, -⟩ := (verdict_eq_ok_iff main alt hf hl).mp hok
  exact (hout hmem).runPieces_ne_ok hw valid main alt t ht

/-- Two returns outside of all conditionals. -/
def repeatedReturn : List Instr := [.push [5], .op .opReturn, .push [6], .op .opReturn]

/-- A return in an arm that is not taken. -/
def skippedReturn : List Instr :=
  [.op .zero, .op .opIf, .op .opReturn, .op .opEndIf, .op .one]

/-- A return that is repeated, and one that is skipped. -/
theorem promotedReturn_accepts_iff_repeated_and_skipped :
    Script.serialize repeatedReturn = .ok [0x55, 0x6A, 0x56, 0x6A] ∧
      ReturnsOutside repeatedReturn ∧
      (∀ valid main alt, verdict valid main alt [0x55, 0x6A, 0x56, 0x6A] ≠ .ok ()) ∧
      Script.serialize skippedReturn = .ok [0, 0x63, 0x6A, 0x68, 0x51] ∧
      ∃ script', Script.serialize
          (Step.instrs (promotedReturn.apply (Step.ofList skippedReturn)).1) = .ok script' ∧
        ∀ valid main alt, verdict valid main alt script' ≠ .ok () := by
  have hs : Script.serialize repeatedReturn = .ok [0x55, 0x6A, 0x56, 0x6A] := by rfl
  have hout : ReturnsOutside repeatedReturn :=
    ⟨[.push [5]], [.push [6], .op .opReturn], rfl, rfl⟩
  have hskipped : Script.serialize skippedReturn = .ok [0, 0x63, 0x6A, 0x68, 0x51] := by rfl
  obtain ⟨promoted, -, hiff, hkeeps⟩ := promotedReturn_accepts_iff hs
  obtain ⟨script', hs', hiff', -⟩ := promotedReturn_accepts_iff hskipped
  refine ⟨hs, hout, fun valid main alt hok => ?_, hskipped, script', hs',
    fun valid main alt hok => ?_⟩
  · have hok' := hkeeps (fun _ => hout) valid main alt hok
    exact ((hiff valid main alt).mp hok').2 (.tail _ (.head _))
  · exact ((hiff' valid main alt).mp hok).2 (.tail _ (.tail _ (.head _)))

/-- The conditionals of the program are balanced, and what it accepts is lost. -/
theorem promotedReturn_rejects_skippedReturn :
    Nesting.Balanced skippedReturn ∧
      ∃ script script', Script.serialize skippedReturn = .ok script ∧
        Script.serialize (Step.instrs (promotedReturn.apply (Step.ofList skippedReturn)).1) =
          .ok script' ∧
        verdict .none [] [] script = .ok () ∧ verdict .none [] [] script' ≠ .ok () := by
  refine ⟨(Nesting.balanced_iff _).mpr rfl, [0, 0x63, 0x6A, 0x68, 0x51],
    [0x6A, 0, 0x63, 0x68, 0x51], by rfl, ?_, ?_, ?_⟩
  · cbv
  · cbv
  · have hfails : verdict .none [] [] [0x6A, 0, 0x63, 0x68, 0x51] = .error .opcodeFailed := by cbv
    rw [hfails]
    intro hok
    cases hok

end Peephole

end NamedStack
