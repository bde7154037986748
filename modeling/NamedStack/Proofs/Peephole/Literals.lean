import NamedStack.Proofs.Peephole.Opcodes

/-!
# Rules on literals

These rules look at what a literal pushes. Adding one to a literal, or a literal to one, is the same
step; two numbers in shortest form differ as byte strings exactly if they differ as numbers; and a
small integer in shortest form is what its opcode pushes.
-/

namespace NamedStack.Peephole

open Script (Piece)
open Engine

/-! ### Arithmetic on literals -/

private theorem read?_one : ScriptNum.read? (ScriptNum.ofInt 1) = some 1 :=
  ScriptNum.read?_ofInt 1 (by decide)

private theorem effects_one_binary {b : BinaryOp} {u : UnaryOp} (h : ∀ x, binary b x 1 = unary u x)
    (valid : Checker) (m : Stack) :
    effects valid ([.one, .binary b].map .opcode) m = effect valid (.unary u) m := by
  cases m with
  | nil => rfl
  | cons a m =>
    change (onNumbers (binary b) (ScriptNum.ofInt 1 :: a :: m)).bind some =
      onNumber (unary u) (a :: m)
    rw [onNumbers, onNumber, read?_one]
    cases ScriptNum.read? a with
    | none => rfl
    | some x =>
      dsimp only
      rw [h]
      rfl

private theorem effects_one_negate (valid : Checker) (m : Stack) :
    effects valid ([.one, .unary .negate].map .opcode) m = effect valid .minusOne m := by
  change (onNumber (unary .negate) (ScriptNum.ofInt 1 :: m)).bind some = _
  rw [onNumber, read?_one]
  rfl

private theorem add_to_one (v : Bytes) (m : Stack) :
    onNumbers (binary .add) (v :: ScriptNum.ofInt 1 :: m) = onNumber (unary .add1) (v :: m) := by
  rw [onNumbers, onNumber, read?_one]
  cases ScriptNum.read? v with
  | none => rfl
  | some x => simp [binary, unary, Int.add_comm]

variable {p : Piece} {v : Bytes}

private theorem refines_one_literal_add (hp : IsPush p v) :
    Refines [.opcode .one, p, .opcode (.binary .add)] [p, .opcode (.unary .add1)] := by
  intro valid s t ht
  obtain ⟨u, hu, ht⟩ := bind_eq_ok_iff.mp ht
  obtain ⟨w, hw, ht⟩ := bind_eq_ok_iff.mp ht
  obtain ⟨x, hx, ht⟩ := bind_eq_ok_iff.mp ht
  cases ht
  cases hr : s.running with
  | false =>
    obtain ⟨-, -, hb, rfl⟩ := (stepPiece_plain_skipped valid rfl hr u).mp hu
    obtain ⟨-, -, -, rfl⟩ := (stepPiece_plain_skipped valid hp.plain (by exact hr) w).mp hw
    obtain ⟨-, hc, -, rfl⟩ := (stepPiece_plain_skipped valid rfl (by exact hr) t).mp hx
    refine ⟨_, bind_eq_ok_iff.mpr ⟨_, (stepPiece_plain_skipped valid hp.plain hr _).mpr
      ⟨hp.enabled, .inl hp.cost, hb, rfl⟩, bind_eq_ok_iff.mpr ⟨_,
      (stepPiece_plain_skipped valid rfl (by exact hr) _).mpr ⟨rfl, ?_, hb, rfl⟩, rfl⟩⟩, ?_⟩
    · exact hc
    · exact State.Within.refl _
  | true =>
    obtain ⟨_, he, -, hb, rfl⟩ := (stepPiece_plain valid rfl hr u).mp hu
    cases he
    obtain ⟨_, he, -, -, rfl⟩ := (stepPiece_plain valid hp.plain (by exact hr) w).mp hw
    rw [hp.effect] at he
    cases he
    obtain ⟨m, he, hc, hb', rfl⟩ := (stepPiece_plain valid rfl (by exact hr) t).mp hx
    have hadd : effectOf valid (.opcode (.unary .add1)) (v :: s.main) = some m :=
      (add_to_one v s.main).symm.trans he
    refine ⟨_, bind_eq_ok_iff.mpr ⟨_, (stepPiece_plain valid hp.plain hr _).mpr
      ⟨_, hp.effect valid _, .inl hp.cost, hb, rfl⟩, bind_eq_ok_iff.mpr ⟨_,
      (stepPiece_plain valid rfl (by exact hr) _).mpr ⟨m, hadd, hc, hb', rfl⟩, rfl⟩⟩, ?_⟩
    exact State.Within.refl _

private theorem item_of_value {i : Instr} (h : Matcher.value.accepts i = true)
    (hp : Script.Writes i p) : ∃ v, itemOf? p = some v := by
  cases i with
  | push d => cases hp; exact ⟨_, rfl⟩
  | op o =>
    cases hp
    cases o with
    | small n => exact ⟨_, rfl⟩
    | _ => cases h
  | _ => cases h

private theorem isOpen_of_value {i : Instr} (h : Matcher.value.accepts i = true) :
    i.isOpen = false := by
  cases i with
  | op | push => rfl
  | _ => cases h

private theorem shortcut_sound {number math short : Opcode}
    (hpair : Refines ([number, math].map .opcode) ([short].map .opcode))
    (hswap : ∀ p v, itemOf? p = some v →
      Refines [.opcode number, p, .opcode math] [p, .opcode short])
    {e : Exchange} (he : e ∈ shortcut number math short) : e.Sound := by
  have front {s : Step} {rest : List Step} (hrest : Matching (Template.ops [number, math]) rest) :
      Lifted Simulates (Step.instrs (s :: rest)) [s.instr, .op short] := by
    have hsim : Lifted Simulates ([number, math].map .op) ([short].map .op) :=
      .of_code (openings_ops _) (openings_ops _) (.of_refines (by simp) hpair)
    replace hsim := (Lifted.congruent Simulates.congruent).append hsim [s.instr] []
    rw [← instrs_of_matching_ops _ hrest, List.append_nil] at hsim
    exact hsim
  intro run hrun
  simp only [shortcut, List.mem_cons, List.not_mem_nil, or_false] at he
  rcases he with rfl | rfl | rfl
  · cases hrun with
    | cons _ hrest => exact front hrest
  · -- the other operand stands between the number and the operation
    cases hrun with
    | cons hn hrest =>
      cases hrest with
      | cons hv hrest =>
        cases hrest with
        | cons hm hnil =>
          cases hnil
          refine .of_code ?_ ?_ fun ps hps => ?_
          · simp [openings, Step.instrs, eq_op_of_accepts hn, eq_op_of_accepts hm,
              isOpen_of_value hv]
          · simp [openings, Step.instrs, Step.op, Step.of, isOpen_of_value hv]
          simp only [Step.instrs, List.map_cons, List.map_nil, eq_op_of_accepts hn,
            eq_op_of_accepts hm, Script.written_cons_iff, Script.written_nil_iff] at hps
          obtain ⟨_, _, rfl, hp, -, p, _, rfl, hq, hf, _, _, rfl, hr, -, rfl⟩ := hps
          cases hp
          cases hr
          obtain ⟨v, hv⟩ := item_of_value hv hq
          refine ⟨[p, .opcode short], ?_, ?_, hswap p v hv⟩
          · simp only [Step.instrs, List.take, List.drop, List.map_cons, List.map_nil,
              List.cons_append, List.nil_append, Script.written_cons_iff, Script.written_nil_iff]
            exact ⟨p, _, rfl, hq, hf, _, _, rfl, rfl, trivial, rfl⟩
          · simp [Script.forms, Piece.form]
  · cases hrun with
    | cons _ hrest => exact front hrest

/-- The short forms of arithmetic with one and two. -/
theorem arithmeticShortcuts_sound : arithmeticShortcuts.Sound := by
  refine Rule.sound_of_exchanges rfl ?_
  simp only [List.cons_append, List.nil_append, List.forall_mem_cons, List.forall_mem_append]
  refine ⟨?_, ?_, ?_, ?_, ?_⟩
  · refine Exchange.ofOpcodes_sound (by decide) ?_
    exact Refines.of_disabled (p := .opcode (.disabled .div)) (by simp) rfl _
  · refine Exchange.ofOpcodes_sound (by decide) ?_
    exact refines_same rfl (by decide) (by decide) (effects_one_binary fun _ => rfl)
  · refine Exchange.ofOpcodes_sound (by decide) ?_
    exact refines_same rfl (by decide) (by decide) effects_one_negate
  · intro e he
    refine shortcut_sound ?_ (fun p v hp => refines_one_literal_add (isPush_of_itemOf? hp)) he
    exact refines_same rfl (by decide) (by decide) (effects_one_binary fun _ => rfl)
  · intro e he
    refine shortcut_sound ?_ (fun p v _ => ?_) he
    all_goals exact Refines.of_disabled (p := .opcode (.disabled .mul)) (by simp) rfl _

/-! ### Literals -/

private theorem pushed_of_isMinimal {d : Bytes} (h : ScriptNum.isMinimal d = true) :
    pushed d = d := by
  refine if_neg ?_
  rintro rfl
  cases h

private theorem read?_of_length (h : v.length ≤ 4) :
    ScriptNum.read? v = some (ScriptNum.value v) := by
  rw [ScriptNum.read?_eq, if_pos h]

private theorem item_of_strict {s : Step} (h : isStrictNumber s = true)
    (hp : Script.Writes s.instr p) :
    ∃ v, itemOf? p = some v ∧ v.length ≤ 4 ∧ ScriptNum.isMinimal v = true := by
  unfold isStrictNumber at h
  cases hl : s.instr.literal? with
  | none => rw [hl] at h; cases h
  | some v =>
    rw [hl] at h
    have hv : v.length ≤ 4 ∧ ScriptNum.isMinimal v = true := by
      cases hparse : ScriptNum.parse v true ScriptNum.maxLen with
      | error e => simp only [hparse] at h; cases h
      | ok n =>
        obtain ⟨h4, hmin, -⟩ := (ScriptNum.parse_strict_iff v n).mp hparse
        exact ⟨h4, hmin⟩
    refine ⟨v, ?_, hv⟩
    cases hi : s.instr with
    | push d =>
      rw [hi] at hl hp
      cases hp
      cases hl
      rw [itemOf?, pushed_of_isMinimal hv.2]
    | op o =>
      rw [hi] at hl hp
      cases hp
      cases o with
      | small n => exact hl
      | _ => cases hl
    | _ => rw [hi] at hl; cases hl

private theorem ofBool_eq (b : Bool) : ofBool b = ScriptNum.ofInt (bit b) := by
  cases b with
  | false => exact (ScriptNum.ofInt_value (v := []) rfl).symm
  | true => exact (ScriptNum.ofInt_value (v := [1]) (by decide)).symm

private theorem equal_not {w : Bytes} (hv : v.length ≤ 4) (hw : w.length ≤ 4)
    (hminv : ScriptNum.isMinimal v = true) (hminw : ScriptNum.isMinimal w = true) (valid : Checker)
    (m : Stack) :
    effects valid [.opcode .equal, .opcode (.unary .not)] (w :: v :: m) =
      effect valid (.binary .numNotEqual) (w :: v :: m) := by
  have hiff : v = w ↔ ScriptNum.value v = ScriptNum.value w :=
    ⟨congrArg _, ScriptNum.eq_of_isMinimal hminv hminw⟩
  have hbit : bit (decide (v = w)) = 0 ↔ ¬ ScriptNum.value v = ScriptNum.value w := by
    by_cases h : ScriptNum.value v = ScriptNum.value w <;> simp [bit, hiff, h]
  change (onNumber (unary .not) (ofBool (decide (v = w)) :: m)).bind some =
    onNumbers (binary .numNotEqual) (w :: v :: m)
  rw [ofBool_eq, onNumber, ScriptNum.read?_ofInt _ (by unfold bit; split <;> decide), onNumbers,
    read?_of_length hv, read?_of_length hw]
  simp only [Option.map_some, Option.bind_some, unary, binary, hbit, ne_eq]

/-- Strict numbers differ as byte strings exactly if they differ as numbers. -/
theorem arithmeticOps_sound : arithmeticOps.Sound := by
  refine Rule.sound_of_exchanges rfl ?_
  simp only [List.forall_mem_singleton]
  intro run hrun
  obtain ⟨s₁, run₁, hv₁, hrun₁, rfl⟩ := List.forall₂_cons_left_iff.mp hrun
  obtain ⟨s₂, run₂, hv₂, hrun₂, rfl⟩ := List.forall₂_cons_left_iff.mp hrun₁
  have hopen : openings [s₁.instr, s₂.instr] = [] := by
    simp [openings, isOpen_of_value hv₁, isOpen_of_value hv₂]
  have hrest : Step.instrs run₂ = [.op .equal, .op (.unary .not)] :=
    instrs_of_matching_ops [.equal, .unary .not] hrun₂
  dsimp only
  split
  · next hstrict =>
    simp only [List.take, List.all_cons, List.all_nil, Bool.and_true, Bool.and_eq_true] at hstrict
    rw [show Step.instrs (s₁ :: s₂ :: run₂) = [s₁.instr, s₂.instr] ++ Step.instrs run₂ from rfl,
      hrest]
    refine .of_code ?_ ?_ fun ps hps => ?_
    · rw [openings_append, hopen]
      rfl
    · change openings ([s₁.instr, s₂.instr] ++ [.op (.binary .numNotEqual)]) = []
      rw [openings_append, hopen]
      rfl
    obtain ⟨front, old, rfl, hfront, hold⟩ := hps.split
    obtain rfl := (Script.written_ops_iff [.equal, .unary .not] old).mp hold
    refine ⟨front ++ [.opcode (.binary .numNotEqual)],
      hfront.append ((Script.written_ops_iff [.binary .numNotEqual] _).mpr rfl), ?_, ?_⟩
    · simp [Script.forms, Piece.form]
    · obtain ⟨p, qs, rfl, hp, -, hqs⟩ := (Script.written_cons_iff _ _ _).mp hfront
      obtain ⟨q, rs, rfl, hq, -, hrs⟩ := (Script.written_cons_iff _ _ _).mp hqs
      obtain rfl := (Script.written_nil_iff _).mp hrs
      obtain ⟨v, hv, hv4, hvmin⟩ := item_of_strict hstrict.1 hp
      obtain ⟨w, hw, hw4, hwmin⟩ := item_of_strict hstrict.2 hq
      have hpush := isPush_of_itemOf? hv
      have hpush' := isPush_of_itemOf? hw
      refine Refines.of_effects [p, q] ?_ (by decide) rfl (by decide) (by simp)
        (by simp [isDisabled, Opcode.isDisabled]) ?_
      · simp [hpush.plain, hpush'.plain]
      · intro valid m u m' hu hm
        simp only [effects_cons, effects_nil, hpush.effect, hpush'.effect, Option.bind_some,
          Option.some.injEq] at hu
        subst hu
        exact (equal_not hv4 hw4 hvmin hwmin valid m).symm.trans hm
  · exact (Lifted.congruent Simulates.congruent).refl _

/-- What is pushed by an opcode of its own is pushed data that stands for the same item. -/
theorem push_of_smallPush? {s : Step} {o : Opcode} (h : smallPush? s = some o) :
    ∃ d n, s.instr = .push d ∧ o = .small n ∧ itemOf? (.data d) = itemOf? (.opcode (.small n)) := by
  unfold smallPush? at h
  cases hi : s.instr with
  | push d =>
    simp only [hi] at h
    cases hparse : ScriptNum.parse d true ScriptNum.maxLen with
    | error e => simp only [hparse] at h; cases h
    | ok n =>
      simp only [hparse] at h
      obtain ⟨k, hk, rfl⟩ := Option.map_eq_some_iff.mp h
      obtain ⟨-, hmin, rfl⟩ := (ScriptNum.parse_strict_iff d n).mp hparse
      have hval : k.val = ScriptNum.value d := by
        unfold SmallInt.ofInt? at hk
        split at hk <;> cases hk
        rfl
      refine ⟨d, k, rfl, rfl, ?_⟩
      rw [itemOf?, itemOf?, pushed_of_isMinimal hmin, hval, ScriptNum.ofInt_value hmin]
  | _ => simp only [hi] at h; cases h

private theorem refines_same_item {q : Piece} (hp : IsPush p v) (hq : IsPush q v) :
    Refines [p] [q] := by
  refine Refines.of_effects [] nofun ?_ hq.plain (hq.cost.trans_le (Nat.zero_le _))
    (List.cons_ne_nil _ _) (fun h => absurd h (by simp [hq.enabled])) ?_
  · simp [hp.plain]
  · intro valid m u m' hu hm
    cases hu
    rw [effects_cons, hp.effect] at hm
    exact (hq.effect valid m).trans hm

private theorem length_pushForm_pos (d : Bytes) : 0 < (Script.pushForm d).length := by
  unfold Script.pushForm
  repeat' split
  all_goals simp

/-- A pushed small integer is pushed by its opcode. -/
theorem smallIntOpcodes_sound : smallIntOpcodes.Sound := by
  refine Rule.sound_of_exchanges rfl ?_
  simp only [List.forall_mem_cons]
  refine ⟨?_, nofun⟩
  intro run hrun
  obtain ⟨s, run₁, -, hrun₁, rfl⟩ := List.forall₂_cons_left_iff.mp hrun
  obtain rfl := List.forall₂_nil_left_iff.mp hrun₁
  cases ho : smallPush? s with
  | none =>
    simp only [List.map_cons, List.map_nil, ho]
    exact (Lifted.congruent Simulates.congruent).refl _
  | some o =>
    simp only [List.map_cons, List.map_nil, ho]
    obtain ⟨d, n, hi, rfl, hitem⟩ := push_of_smallPush? ho
    refine .of_code ?_ rfl fun ps hps => ?_
    · simp [openings, Step.instrs, hi]
    rw [Step.instrs, List.map_cons, hi] at hps
    obtain ⟨p, qs, rfl, hp, -, hqs⟩ := (Script.written_cons_iff _ _ _).mp hps
    obtain rfl := (Script.written_nil_iff _).mp hqs
    cases hp
    refine ⟨[.opcode (.small n)], (Script.written_ops_iff [.small n] _).mpr rfl, ?_, ?_⟩
    · change 1 ≤ (Script.pushForm d ++ []).length
      rw [List.append_nil]
      exact length_pushForm_pos d
    · exact refines_same_item (isPush_of_itemOf? hitem) (isPush_of_itemOf? rfl)

end NamedStack.Peephole
