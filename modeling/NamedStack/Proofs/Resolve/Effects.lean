import NamedStack.Proofs.Resolve.Told

/-!
# Effects in a run

What steps of a resolved program say of their effects, compared with what the engine does: it is
right of an `IFDUP` that runs exactly if a number stands in front of it or the item on top is false,
and of a check of several signatures exactly if the counts that it has come to as many items as the
engine takes.
-/

namespace NamedStack

variable {steps : List Step}

/-! ### Runs -/

open Engine
open Script (Piece Writes)

/-- Whether a step says by how much the height of the main stack changes from one state to another.
-/
def Step.Tells (s : Step) (a b : State) : Prop := (b.main.length : Int) = a.main.length + s.delta

section

variable {valid : Checker} {u a b : State} {ps : List Piece} {i : Nat} {st : Step}

private theorem isTrue_of_intAt? {n : Int} (hn : Step.intAt? steps (i - 1) = some n)
    (hw : List.Forall₂ Writes ((Step.instrs steps).take i) ps)
    (ha : runPieces valid u ps = .ok a) (hr : a.running = true) {x : Bytes} {rest : Stack}
    (hx : a.main = x :: rest) : isTrue x = decide (n ≠ 0) := by
  cases i with
  | zero => cases hn
  | succ j =>
    rw [Nat.cast_succ, Int.add_sub_cancel, intAt?_eq, Option.bind_eq_some_iff] at hn
    obtain ⟨lit, hlit, hn⟩ := hn
    rw [List.take_add_one, hlit] at hw
    obtain ⟨front, last, rfl, -, hlast⟩ := forall₂_append_left hw
    obtain ⟨q, none, hq, hnone, rfl⟩ := List.forall₂_cons_left_iff.mp hlast
    obtain rfl := List.forall₂_nil_left_iff.mp hnone
    obtain ⟨v, hpush, hv⟩ := exists_item hq hn
    obtain ⟨w, -, -, hmain⟩ := runPieces_push hpush ha hr
    obtain ⟨rfl, -⟩ := List.cons.inj (hx.symm.trans hmain)
    rw [ScriptNum.read?_eq] at hv
    split at hv
    · rw [isTrue_eq, Option.some.inj hv]
    · cases hv

private theorem tells_ifDup_iff (htold : AllTold false steps) (hst : steps[i]? = some st)
    (hinstr : st.instr = .op .ifDup) (hw : List.Forall₂ Writes ((Step.instrs steps).take i) ps)
    (ha : runPieces valid u ps = .ok a) (hr : a.running = true)
    (hb : stepPiece valid a (.opcode .ifDup) = .ok b) :
    (Context.refine steps i st).Tells a b ↔ (Step.intAt? steps (i - 1)).isSome = true ∨
      ∃ x rest, a.main = x :: rest ∧ isTrue x = false := by
  obtain ⟨x, rest, hx, hlen⟩ := stepPiece_ifDup hr hb
  cases hn : Step.intAt? steps (i - 1) with
  | some n =>
    refine iff_of_true ?_ (.inl rfl)
    rw [Step.Tells, Context.delta_refine_ifDup hinstr hn, hlen,
      isTrue_of_intAt? hn hw ha hr hx]
    by_cases hzero : n = 0 <;> simp [hzero]
  | none =>
    have hdelta : (Context.refine steps i st).delta = 0 := by
      have hsame : Context.refine steps i st = st := by simp only [Context.refine, hinstr, hn]
      have hfront := numberBehind_take (List.getElem?_eq_some_iff.mp hst).1.le
      rw [hn] at hfront
      have hst := (allTold_iff.mp htold i st hst).ifDup hinstr
      rw [hfront] at hst
      rw [hsame]
      exact hst.resolve_right Bool.false_ne_true
    rw [Step.Tells, hdelta, hlen, hx]
    cases hitem : isTrue x with
    | true => simp [hitem]
    | false => simp [hitem]

private theorem tells_multisig_iff {number : Bool} (hst : st.Told number) {o : Opcode} {r : Nat}
    (hinstr : st.instr = .op o) (ho : o.multisigResults? = some r) (hr : a.running = true)
    (hb : stepPiece valid a (.opcode o) = .ok b) :
    ∃ c, multisig a.main = some c ∧ (st.Tells a b ↔
      ∃ m, st.multisig = some m ∧ m.keys + m.sigs = c.keys.length + c.sigs.length) := by
  obtain ⟨c, hc, hlen⟩ := stepPiece_multisig ho hr hb
  refine ⟨c, hc, ?_⟩
  have hdelta := hst.multisig o r hinstr ho
  have hresults : r ≤ 1 := by
    unfold Opcode.multisigResults? at ho
    split at ho <;> cases ho <;> omega
  rw [Step.Tells, hdelta]
  cases st.multisig with
  | none =>
    refine iff_of_false ?_ nofun
    rw [Option.map_none, Option.getD_none]
    omega
  | some m =>
    simp only [Option.map_some, Option.getD_some, Option.some.injEq, exists_eq_left']
    push_cast
    omega

private theorem multisigAt?_of_counted {keys sigs : Nat} (hi : i ≤ steps.length)
    (h : Counted ((Step.instrs steps).take i) keys sigs) :
    Context.multisigAt? steps i = some { sigs, keys } := by
  obtain ⟨front, first, items, last, heq, hfirst, hlast, rfl, -⟩ := h
  have hlen : i = front.length + items.length + 2 := by
    have hlen := congrArg List.length heq
    rw [Step.instrs, List.length_take, List.length_map, min_eq_left hi] at hlen
    simpa [Nat.add_assoc] using hlen
  have hat {j : Nat} (hj : j < i) :
      (Step.instrs steps)[j]? = (front ++ first :: (items ++ [last]))[j]? := by
    rw [← heq, List.getElem?_take_of_lt hj]
  have hkeys : Step.intAt? steps (i - 1) = some (items.length : Int) := by
    have hpos : (i : Int) - 1 = (front.length + (items.length + 1) : Nat) := by omega
    rw [hpos, intAt?_eq, hat (by omega), List.getElem?_append_right (by omega)]
    simp [hlast]
  have hsigs : Step.intAt? steps (i - 2 - items.length) = some (sigs : Int) := by
    have hpos : (i : Int) - 2 - items.length = (front.length : Nat) := by omega
    rw [hpos, intAt?_eq, hat (by omega), List.getElem?_append_right le_rfl]
    simp [hfirst]
  simp [Context.multisigAt?, hkeys, hsigs]

private theorem multisig_refine {o : Opcode} {r : Nat} (hinstr : st.instr = .op o)
    (ho : o.multisigResults? = some r) {m : Multisig} (hm : Context.multisigAt? steps i = some m) :
    (Context.refine steps i st).multisig = some m := by
  cases o with
  | checkMultiSig | checkMultiSigVerify =>
    simp only [Context.refine, hinstr, Context.refine.multisig, hm]
  | _ => cases ho

end

/-- In a run of a resolved program to its end, what the last context says of an executed `IFDUP` is
right exactly if a number stands directly in front of it or the item on top is false; and what it
says of an executed check of several signatures is right exactly if its counts have been found and
come to as many items as the engine takes, as they do where they are literals in front of it. -/
theorem resolve_tells_executed_effects {p : Program} {o : Options}
    {opt : Option Peephole.Optimizer} (hopt : ∀ q, opt = some q → q.enabled = false) {s : Session}
    (h : resolve (.ofProgram p) o opt p.ops = { session := s, failure := none }) {script : Bytes}
    (hscript : Script.serialize (Step.instrs s.steps) = .ok script) {valid : Checker}
    {main : Stack} {t : State} (hrun : runFrom valid main [] script = .ok t) {i : Nat} {st : Step}
    (hst : s.steps[i]? = some st) :
    ∃ a b, RunsAt valid main script i a b ∧ (a.running = true →
      (st.instr = .op .ifDup → (st.Tells a b ↔ (Step.intAt? s.steps (i - 1)).isSome = true ∨
        ∃ x rest, a.main = x :: rest ∧ isTrue x = false)) ∧
      ∀ check r, st.instr = .op check → check.multisigResults? = some r →
        ∃ c, multisig a.main = some c ∧
          (st.Tells a b ↔
            ∃ m, st.multisig = some m ∧ m.keys + m.sigs = c.keys.length + c.sigs.length) ∧
          ((∃ keys sigs, Counted ((Step.instrs s.steps).take i) keys sigs) → st.Tells a b)) := by
  obtain ⟨steps, htold, hsteps⟩ := Session.refined_of_resolve hopt h
  have hinstrs : Step.instrs s.steps = Step.instrs steps := by
    rw [hsteps, Context.instrs_refined]
  have hsaid := allTold_iff.mp htold.refined i st (hsteps ▸ hst)
  rw [hsteps, Context.getElem?_refined] at hst
  obtain ⟨found, hfound, rfl⟩ := Option.map_eq_some_iff.mp hst
  obtain ⟨hi, -⟩ := List.getElem?_eq_some_iff.mp hfound
  have hat : (Step.instrs steps)[i]? = some found.instr := by
    rw [Step.instrs, List.getElem?_map, hfound]
    rfl
  rw [hinstrs] at hscript
  obtain ⟨front, q, a, b, hfront, hq, ha, hb, hruns⟩ := exists_runsAt hscript hrun hat
  rw [Context.instr_refine, intAt?_congr hinstrs, hinstrs]
  refine ⟨a, b, hruns, fun hr => ⟨fun hinstr => ?_, fun check r hinstr hresults => ?_⟩⟩
  · rw [hinstr] at hq
    cases hq
    exact tells_ifDup_iff htold hfound hinstr hfront ha hr hb
  · rw [hinstr] at hq
    cases hq
    obtain ⟨c, hc, htells⟩ := tells_multisig_iff hsaid
      ((Context.instr_refine steps i found).trans hinstr) hresults hr hb
    refine ⟨c, hc, htells, ?_⟩
    rintro ⟨keys, sigs, hcounted⟩
    obtain ⟨hkeys, hsigs⟩ := counts_of_counted hcounted hfront ha hr hc
    refine htells.mpr ⟨_, multisig_refine hinstr hresults (multisigAt?_of_counted hi.le hcounted),
      ?_⟩
    rw [hkeys, hsigs]

/-- Checks one signature with two keys, and duplicates a number and an item of the initial stack. -/
def checkAndDuplicate : Program where
  stack := [[97]]
  ops := [.op .zero, .push [7, 7], .op .one, .push [2, 2], .op .dup, .op .two, .op .checkMultiSig,
    .op .one, .op .ifDup, .assume [97], .op .ifDup]

/-- The script that the program is resolved to, with the item moved to the top. -/
def checkAndDuplicateScript : Bytes :=
  [0, 2, 7, 7, 81, 2, 2, 2, 118, 82, 174, 81, 115, 83, 122, 115]

/-- A check of signatures and two duplicates. -/
theorem resolve_tells_executed_effects_check_and_duplicate :
    ∃ s t, resolve (.ofProgram checkAndDuplicate) {} none checkAndDuplicate.ops =
        { session := s, failure := none } ∧
      Script.serialize (Step.instrs s.steps) = .ok checkAndDuplicateScript ∧
      runFrom (fun _ _ => true) [[]] [] checkAndDuplicateScript = .ok t ∧
      ∀ i ∈ [6, 8, 11], ∃ st a b, s.steps[i]? = some st ∧ ¬ Steady st.instr ∧
        RunsAt (fun _ _ => true) [[]] checkAndDuplicateScript i a b ∧ a.running = true ∧
        st.Tells a b := by
  have hfailure :
      (resolve (.ofProgram checkAndDuplicate) {} none checkAndDuplicate.ops).failure = none := by
    cbv
  obtain ⟨s, hresolve, hinstrs⟩ : ∃ s,
      resolve (.ofProgram checkAndDuplicate) {} none checkAndDuplicate.ops =
        { session := s, failure := none } ∧
      Step.instrs s.steps = [.op .zero, .push [7, 7], .op .one, .push [2, 2], .op .dup, .op .two,
        .op .checkMultiSig, .op .one, .op .ifDup, .op (.small ⟨3, by decide⟩), .op .roll,
        .op .ifDup] := ⟨_, congrArg (Resolution.mk _) hfailure, by cbv⟩
  have hscript : Script.serialize (Step.instrs s.steps) = .ok checkAndDuplicateScript := by
    rw [hinstrs]
    cbv
  have hrun : runFrom (fun _ _ => true) [[]] [] checkAndDuplicateScript =
      .ok ⟨[[], [1], [1], [1]], [], [], 7⟩ := by cbv
  have hat {i : Nat} {instr : Instr} (hi : (Step.instrs s.steps)[i]? = some instr) :=
    Option.map_eq_some_iff.mp ((List.getElem?_map ..).symm.trans hi)
  have hstate {i : Nat} {a b u : State}
      (hruns : RunsAt (fun _ _ => true) [[]] checkAndDuplicateScript i a b)
      (hu : ((load checkAndDuplicateScript).bind fun ts =>
        run (fun _ _ => true) { main := [[]] } (ts.take i)) = .ok u) : a = u :=
    Except.ok.inj (hruns.run_take.symm.trans hu)
  refine ⟨_, _, hresolve, hscript, hrun, ?_⟩
  simp only [List.forall_mem_cons]
  refine ⟨?_, ?_, ?_, List.forall_mem_nil _⟩
  · obtain ⟨st, hst, hinstr⟩ := hat (i := 6) (congrArg (·[6]?) hinstrs)
    obtain ⟨a, b, hruns, htells⟩ :=
      resolve_tells_executed_effects (by simp) hresolve hscript hrun hst
    obtain rfl :=
      hstate hruns (u := ⟨[[2], [2, 2], [2, 2], [1], [7, 7], [], []], [], [], 1⟩) (by cbv)
    obtain ⟨c, -, -, hcounted⟩ := (htells rfl).2 _ _ hinstr rfl
    refine ⟨st, _, b, hst, by rw [hinstr]; decide, hruns, rfl, hcounted ⟨2, 1, ?_⟩⟩
    rw [hinstrs]
    exact ⟨[.op .zero, .push [7, 7]], .op .one, [.push [2, 2], .op .dup], .op .two, by decide⟩
  · obtain ⟨st, hst, hinstr⟩ := hat (i := 8) (congrArg (·[8]?) hinstrs)
    obtain ⟨a, b, hruns, htells⟩ :=
      resolve_tells_executed_effects (by simp) hresolve hscript hrun hst
    obtain rfl := hstate hruns (u := ⟨[[1], [1], []], [], [], 4⟩) (by cbv)
    refine ⟨st, _, b, hst, by rw [hinstr]; decide, hruns, rfl, ?_⟩
    refine ((htells rfl).1 hinstr).mpr (.inl ?_)
    rw [show ((8 : Nat) : Int) - 1 = (7 : Nat) from rfl, intAt?_eq, hinstrs]
    rfl
  · obtain ⟨st, hst, hinstr⟩ := hat (i := 11) (congrArg (·[11]?) hinstrs)
    obtain ⟨a, b, hruns, htells⟩ :=
      resolve_tells_executed_effects (by simp) hresolve hscript hrun hst
    obtain rfl := hstate hruns (u := ⟨[[], [1], [1], [1]], [], [], 6⟩) (by cbv)
    refine ⟨st, _, b, hst, by rw [hinstr]; decide, hruns, rfl, ?_⟩
    exact ((htells rfl).1 hinstr).mpr (.inr ⟨_, _, rfl, rfl⟩)

/-- Duplicates an item of the initial stack. -/
def duplicateItem : Program where
  stack := [[97]]
  ops := [.assume [97], .op .ifDup, .op .depth, .op .one, .op .equal]

/-- Nothing is known of an item of the initial stack, so that it may be duplicated by a step that
says that it adds nothing. -/
theorem not_tells_duplicate_item :
    ∃ s script t st a b, resolve (.ofProgram duplicateItem) {} none duplicateItem.ops =
        { session := s, failure := none } ∧
      Script.serialize (Step.instrs s.steps) = .ok script ∧
      runFrom .none [[1]] [] script = .ok t ∧ s.steps[0]? = some st ∧ st.instr = .op .ifDup ∧
      RunsAt .none [[1]] script 0 a b ∧ a.running = true ∧ ¬ st.Tells a b := by
  have hfailure :
      (resolve (.ofProgram duplicateItem) {} none duplicateItem.ops).failure = none := by
    cbv
  have hscript : Script.serialize (Step.instrs
      (resolve (.ofProgram duplicateItem) {} none duplicateItem.ops).session.steps) =
        .ok [115, 116, 81, 135] := by cbv
  have hsteps : (resolve (.ofProgram duplicateItem) {} none duplicateItem.ops).session.steps[0]? =
      some (Step.op .ifDup) := by cbv
  refine ⟨_, [115, 116, 81, 135], ⟨[[], [1], [1]], [], [], 3⟩, Step.op .ifDup, { main := [[1]] },
    ⟨[[1], [1]], [], [], 1⟩, congrArg (Resolution.mk _) hfailure, hscript, by cbv, hsteps, rfl,
    ⟨[], .op 115, [.op 116, .op 81, .op 135], by cbv, rfl, rfl, by cbv⟩, rfl, ?_⟩
  unfold Step.Tells
  decide

end NamedStack
