import NamedStack.Peephole.Rules
import NamedStack.Proofs.Peephole.Exchange

/-!
# Rules that exchange opcodes for opcodes

Each of these rules exchanges opcodes for shorter ones that do the same to every stack on which the
longer form runs to its end. Mostly this is a fact about the effects of a few opcodes; the exchanges
that touch conditionals, the alt stack or a check of several signatures are looked at state by
state.
-/

namespace NamedStack.Peephole

open Script (Piece)
open Engine

/-! ### Runs of opcodes -/

variable {new a b : Opcode} {old : List Opcode}

private theorem refines_one (hs : (old.all Opcode.isPlain && new.isPlain) = true)
    (hc : cost (.opcode new) ≤ totalCost (old.map .opcode)) (hne : old ≠ [])
    (hd : new.isDisabled = true → ∃ o ∈ old, o.isDisabled = true)
    (h : ∀ valid m m', effects valid (old.map .opcode) m = some m' →
      effect valid new m = some m') : Refines (old.map .opcode) [.opcode new] := by
  obtain ⟨hp, hn⟩ := (Bool.and_eq_true _ _).mp hs
  refine Refines.of_effects [] nofun ?_ hn hc (by simpa using hne) ?_ ?_
  · intro p hp'
    obtain ⟨o, ho, rfl⟩ := List.mem_map.mp hp'
    exact List.all_eq_true.mp hp o ho
  · intro hnew
    obtain ⟨o, ho, hdis⟩ := hd hnew
    exact ⟨.opcode o, List.mem_map_of_mem ho, hdis⟩
  · intro valid m u m' hu h'
    cases hu
    exact h valid m m' h'

/-- Plain opcodes may be exchanged for one opcode that has the same effect on every stack. -/
theorem refines_same (hs : (old.all Opcode.isPlain && new.isPlain) = true)
    (hc : cost (.opcode new) ≤ totalCost (old.map .opcode))
    (hd : old ≠ [] ∧ (new.isDisabled = true → ∃ o ∈ old, o.isDisabled = true))
    (h : ∀ valid m, effects valid (old.map .opcode) m = effect valid new m) :
    Refines (old.map .opcode) [.opcode new] :=
  refines_one hs hc hd.1 hd.2 fun valid m _ hm => (h valid m).symm.trans hm

private theorem refines_none (hs : old.all Opcode.isPlain = true)
    (h : ∀ valid m m', effects valid (old.map .opcode) m = some m' → m' = m) :
    Refines (old.map .opcode) [] := by
  refine Refines.of_effects_nil ?_ h
  intro p hp'
  obtain ⟨o, ho, rfl⟩ := List.mem_map.mp hp'
  exact List.all_eq_true.mp hs o ho

private theorem refines_pair (hd : new.isDisabled = false)
    (hc : cost (.opcode new) = cost (.opcode a)) (h : ∀ valid s u t, exec valid a s = .ok u →
      exec valid b { u with ops := u.ops + cost (.opcode b) } = .ok t →
      ∃ t', exec valid new s = .ok t' ∧ t'.Within t) :
    Refines [.opcode a, .opcode b] [.opcode new] := by
  intro valid s t ht
  rw [runPieces_cons] at ht
  obtain ⟨u, hu, ht⟩ := bind_eq_ok_iff.mp ht
  obtain ⟨v, hv, ht⟩ := bind_eq_ok_iff.mp ht
  cases ht
  obtain ⟨-, hca, hu, -⟩ := (stepPiece_eq_ok_iff valid s u _).mp hu
  obtain ⟨-, -, hv, hb⟩ := (stepPiece_eq_ok_iff valid u t _).mp hv
  obtain ⟨t', ht', hw⟩ := h valid _ u t hu hv
  rw [← hw.main, ← hw.alt] at hb
  have hstep := (stepPiece_eq_ok_iff valid s t' (.opcode new)).mpr
    ⟨hd, hc ▸ hca, hc ▸ ht', hb⟩
  exact ⟨t', bind_eq_ok_iff.mpr ⟨t', hstep, rfl⟩, hw⟩

private theorem refines_pair_nil (h : ∀ valid s u t, exec valid a s = .ok u →
      exec valid b { u with ops := u.ops + cost (.opcode b) } = .ok t → s.Within t) :
    Refines [.opcode a, .opcode b] [] := by
  intro valid s t ht
  rw [runPieces_cons] at ht
  obtain ⟨u, hu, ht⟩ := bind_eq_ok_iff.mp ht
  obtain ⟨v, hv, ht⟩ := bind_eq_ok_iff.mp ht
  cases ht
  obtain ⟨-, -, hu, -⟩ := (stepPiece_eq_ok_iff valid s u _).mp hu
  obtain ⟨-, -, hv, -⟩ := (stepPiece_eq_ok_iff valid u t _).mp hv
  have hw := h valid _ u t hu hv
  exact ⟨s, rfl, hw.main, hw.alt, hw.conds, (Nat.le_add_right _ _).trans hw.ops⟩

/-! ### Verifications -/

private theorem refines_verify {o v : Opcode} (hs : (o.isPlain && v.isPlain) = true)
    (hc : cost (.opcode v) ≤ totalCost [.opcode o, .opcode .verify]) (hd : v.isDisabled = false)
    (h : ∀ valid m, effect valid v m = (effect valid o m).bind verify) :
    Refines ([o, .verify].map .opcode) [.opcode v] := by
  refine refines_one ?_ hc (List.cons_ne_nil _ _) (fun hdis => absurd hdis (by simp [hd])) ?_
  · obtain ⟨ho, hv⟩ := (Bool.and_eq_true _ _).mp hs
    rw [List.all_cons, ho, hv]
    rfl
  · intro valid m m' hm
    rw [h]
    obtain ⟨u, hu, hm⟩ := Option.bind_eq_some_iff.mp hm
    obtain ⟨w, hw, hm⟩ := Option.bind_eq_some_iff.mp hm
    cases hm
    exact Option.bind_eq_some_iff.mpr ⟨u, hu, hw⟩

private theorem refines_multisig_verify :
    Refines [.opcode .checkMultiSig, .opcode .verify] [.opcode .checkMultiSigVerify] := by
  refine refines_pair rfl rfl ?_
  intro valid s u t hu ht
  cases hr : s.running with
  | false =>
    rw [exec_skipped valid rfl hr] at hu
    cases hu
    have hr' : State.running { s with ops := s.ops + cost (.opcode .verify) } = false := hr
    rw [exec_skipped valid rfl hr'] at ht
    cases ht
    exact ⟨s, exec_skipped valid rfl hr, rfl, rfl, rfl, Nat.le_add_right _ _⟩
  | true =>
    rw [exec_multisig valid (.inl rfl) hr] at hu
    rw [exec_multisig valid (.inr rfl) hr]
    cases hm : multisig s.main with
    | none => rw [hm] at hu; cases hu
    | some m =>
      rw [hm] at hu
      obtain ⟨v, hv, hu⟩ := bind_eq_ok_iff.mp hu
      obtain ⟨c, hc, rfl⟩ := (onMain_iff _ _ _).mp hu
      have hv' : v = { s with ops := s.ops + m.keys.length } := by
        unfold State.count at hv
        split at hv <;> cases hv
        rfl
      subst hv'
      obtain ⟨w, hw, rfl⟩ := (exec_plain_iff valid rfl (by exact hr) t).mp ht
      refine ⟨_, bind_eq_ok_iff.mpr ⟨_, hv, (onMain_iff _ _ _).mpr ⟨w, ?_, rfl⟩⟩,
        rfl, rfl, rfl, Nat.le_add_right _ _⟩
      exact Option.bind_eq_some_iff.mpr ⟨c, hc, hw⟩

/-- A verification after a check is the opcode that checks and verifies. -/
theorem mergeVerify_sound : mergeVerify.Sound := by
  refine fixedRule_sound ?_
  simp only [List.forall_mem_cons]
  refine ⟨⟨by decide, ?_⟩, ⟨by decide, ?_⟩, ⟨by decide, ?_⟩, ⟨by decide, ?_⟩, nofun⟩
  · exact refines_verify rfl (by decide) rfl fun _ _ => rfl
  · exact refines_verify rfl (by decide) rfl fun _ _ => rfl
  · exact refines_verify rfl (by decide) rfl fun _ _ => rfl
  · exact refines_multisig_verify

/-! ### The alt stack and conditionals -/

private theorem refines_alt_pair (ha : a.isMarker = false) (hb : b.isMarker = false)
    (h : ∀ valid s u t, s.running = true → exec valid a s = .ok u →
      exec valid b { u with ops := u.ops + cost (.opcode b) } = .ok t → s.Within t) :
    Refines [.opcode a, .opcode b] [] := by
  refine refines_pair_nil ?_
  intro valid s u t hu ht
  cases hr : s.running with
  | true => exact h valid s u t hr hu ht
  | false =>
    rw [exec_skipped valid ha hr] at hu
    cases hu
    have hr' : State.running { s with ops := s.ops + cost (.opcode b) } = false := hr
    rw [exec_skipped valid hb hr'] at ht
    cases ht
    exact ⟨rfl, rfl, rfl, Nat.le_add_right _ _⟩

/-- What is moved between the stacks and back is where it was. -/
theorem altStackOps_sound : altStackOps.Sound := by
  refine fixedRule_sound ?_
  simp only [List.forall_mem_cons]
  refine ⟨⟨by decide, ?_⟩, ⟨by decide, ?_⟩, nofun⟩
  · refine refines_alt_pair rfl rfl ?_
    intro valid s u t hr hu ht
    obtain ⟨x, main, hm, rfl⟩ := (exec_toAltStack_iff valid hr u).mp hu
    obtain ⟨y, alt, hy, rfl⟩ := (exec_fromAltStack_iff valid (by exact hr) t).mp ht
    cases hy
    exact ⟨hm, rfl, rfl, Nat.le_add_right _ _⟩
  · refine refines_alt_pair rfl rfl ?_
    intro valid s u t hr hu ht
    obtain ⟨x, alt, ha, rfl⟩ := (exec_fromAltStack_iff valid hr u).mp hu
    obtain ⟨y, main, hy, rfl⟩ := (exec_toAltStack_iff valid (by exact hr) t).mp ht
    cases hy
    exact ⟨rfl, ha, rfl, Nat.le_add_right _ _⟩

private theorem refines_not_if :
    Refines [.opcode (.unary .not), .opcode .opIf] [.opcode .opNotIf] := by
  refine refines_pair rfl rfl ?_
  intro valid s u t hu ht
  cases hr : s.running with
  | false =>
    rw [exec_skipped valid rfl hr] at hu
    cases hu
    have hr' : State.running { s with ops := s.ops + cost (.opcode .opIf) } = false := hr
    rw [show exec valid .opIf _ = State.openCond isTrue _ from rfl, openCond_skipped hr'] at ht
    cases ht
    exact ⟨_, openCond_skipped hr _, rfl, rfl, rfl, Nat.le_add_right _ _⟩
  | true =>
    obtain ⟨m, hm, rfl⟩ := (exec_plain_iff valid rfl hr u).mp hu
    obtain ⟨a, main, ha, rfl⟩ := (openCond_iff (by exact hr) isTrue t).mp ht
    cases hs : s.main with
    | nil => rw [hs] at hm; cases hm
    | cons x rest =>
      rw [hs] at hm
      obtain ⟨n, hn, hm⟩ := Option.map_eq_some_iff.mp hm
      dsimp only at ha
      obtain ⟨rfl, rfl⟩ := List.cons.inj (hm.trans ha)
      refine ⟨_, (openCond_iff hr _ _).mpr ⟨x, rest, hs, rfl⟩, rfl, rfl, ?_, Nat.le_add_right _ _⟩
      -- a negation is true exactly of what is false
      have hx : n = ScriptNum.value x := by
        rw [ScriptNum.read?_eq] at hn
        split at hn
        · exact (Option.some.inj hn).symm
        · cases hn
      have htest : (!isTrue x) = isTrue (ScriptNum.ofInt (unary .not n)) := by
        rw [isTrue_eq, isTrue_eq, ScriptNum.value_ofInt, ← hx]
        by_cases h0 : n = 0 <;> simp [unary, bit, h0]
      dsimp only
      rw [htest]

/-- A conditional on a negation is the opposite conditional. -/
theorem conditionalShortcuts_sound : conditionalShortcuts.Sound := by
  refine fixedRule_sound ?_
  simp only [List.forall_mem_cons]
  exact ⟨⟨by decide, refines_not_if⟩, nofun⟩

private theorem refines_else_endIf :
    Refines [.opcode .opElse, .opcode .opEndIf] [.opcode .opEndIf] := by
  refine refines_pair rfl rfl ?_
  intro valid s u t hu ht
  obtain ⟨d, rest, hd, rfl⟩ := (close_iff _ t).mp ht
  obtain ⟨c, conds, hc, rfl⟩ := (flip_iff s u).mp hu
  cases hd
  exact ⟨_, (close_iff s _).mpr ⟨c, _, hc, rfl⟩, rfl, rfl, rfl, Nat.le_add_right _ _⟩

private theorem refines_if_endIf :
    Refines [.opcode .opIf, .opcode .opEndIf] [.opcode .drop] := by
  refine refines_pair rfl rfl ?_
  intro valid s u t hu ht
  obtain ⟨d, rest, hd, rfl⟩ := (close_iff _ t).mp ht
  cases hr : s.running with
  | false =>
    rw [show exec valid .opIf s = s.openCond isTrue from rfl, openCond_skipped hr] at hu
    cases hu
    cases hd
    exact ⟨s, exec_skipped valid rfl hr, rfl, rfl, rfl, Nat.le_add_right _ _⟩
  | true =>
    obtain ⟨a, main, ha, rfl⟩ := (openCond_iff hr isTrue u).mp hu
    cases hd
    refine ⟨_, (exec_plain_iff valid rfl hr _).mpr ⟨main, ?_, rfl⟩, rfl, rfl, rfl,
      Nat.le_add_right _ _⟩
    rw [ha]
    rfl

/-- An arm without content, and a conditional without arms, can go. -/
theorem nullConditionals_sound : nullConditionals.Sound := by
  refine fixedRule_sound ?_
  simp only [List.forall_mem_cons]
  exact ⟨⟨by decide, refines_else_endIf⟩, ⟨by decide, refines_if_endIf⟩, nofun⟩

/-! ### Stack opcodes, hashes and operands in any order -/

private theorem withNumber_ofInt (f : Int → Stack → Option Stack) {n : Int} (hn : n.natAbs < 2 ^ 31)
    (m : Stack) : withNumber f (ScriptNum.ofInt n :: m) = f n m := by
  rw [withNumber, ScriptNum.read?_ofInt n hn, Option.bind_some]

private theorem effects_pick (valid : Checker) (n : SmallInt) (hn : n.val.natAbs < 2 ^ 31)
    (ps : List Piece) (m : Stack) :
    effects valid (.opcode (.small n) :: .opcode .pick :: ps) m =
      (pick n.val m).bind (effects valid ps) :=
  congrArg (Option.bind · _) (withNumber_ofInt pick hn m)

private theorem effects_roll (valid : Checker) (n : SmallInt) (hn : n.val.natAbs < 2 ^ 31)
    (ps : List Piece) (m : Stack) :
    effects valid (.opcode (.small n) :: .opcode .roll :: ps) m =
      (roll n.val m).bind (effects valid ps) :=
  congrArg (Option.bind · _) (withNumber_ofInt roll hn m)

private theorem effects_shuffle_pair (valid : Checker) (m : Stack) :
    effects valid ([.nip, .drop].map .opcode) m = effect valid .drop2 m ∧
      effects valid ([.over, .over].map .opcode) m = effect valid .dup2 m ∧
      effects valid ([.drop, .drop].map .opcode) m = effect valid .drop2 m := by
  match m with
  | [] | [_] | _ :: _ :: _ => exact ⟨rfl, rfl, rfl⟩

private theorem effects_one (valid : Checker) (m : Stack) :
    effects valid ([.one, .pick].map .opcode) m = effect valid .over m ∧
      effects valid ([.one, .roll, .drop].map .opcode) m = effect valid .nip m ∧
      effects valid ([.one, .roll].map .opcode) m = effect valid .swap m := by
  have hpick := effects_pick valid ⟨1, by decide⟩ (by decide) [] m
  have hdrop := effects_roll valid ⟨1, by decide⟩ (by decide) [.opcode .drop] m
  have hroll := effects_roll valid ⟨1, by decide⟩ (by decide) [] m
  refine ⟨hpick.trans ?_, hdrop.trans ?_, hroll.trans ?_⟩
  all_goals
    match m with
    | [] | [_] | _ :: _ :: _ => rfl

private theorem effects_zero_pick (valid : Checker) (m : Stack) :
    effects valid ([.zero, .pick].map .opcode) m = effect valid .dup m := by
  refine (effects_pick valid ⟨0, by decide⟩ (by decide) [] m).trans ?_
  cases m <;> rfl

private theorem effects_zero_roll (valid : Checker) {m m' : Stack}
    (h : effects valid ([.zero, .roll].map .opcode) m = some m') : m' = m := by
  have hroll := (effects_roll valid ⟨0, by decide⟩ (by decide) [] m).symm.trans h
  cases m with
  | nil => cases hroll
  | cons a m => exact (Option.some.inj hroll).symm

private theorem effects_one_roll_twice (valid : Checker) {m m' : Stack}
    (h : effects valid ([.one, .roll, .one, .roll].map .opcode) m = some m') : m' = m := by
  have hroll := (effects_roll valid ⟨1, by decide⟩ (by decide) _ m).symm.trans h
  obtain ⟨u, hu, hroll⟩ := Option.bind_eq_some_iff.mp hroll
  have hroll' := (effects_roll valid ⟨1, by decide⟩ (by decide) [] u).symm.trans hroll
  match m with
  | [] | [_] => cases hu
  | a :: b :: m =>
    cases hu
    exact (Option.some.inj hroll').symm

/-- The short forms of stack opcodes. -/
theorem stackOps_sound : stackOps.Sound := by
  refine fixedRule_sound ?_
  simp only [List.forall_mem_cons]
  refine ⟨⟨by decide, ?_⟩, ⟨by decide, ?_⟩, ⟨by decide, ?_⟩, ⟨by decide, ?_⟩, ⟨by decide, ?_⟩,
    ⟨by decide, ?_⟩, ⟨by decide, ?_⟩, ⟨by decide, ?_⟩, ⟨by decide, ?_⟩, nofun⟩
  · exact refines_same rfl (by decide) (by decide) fun valid m => (effects_one valid m).1
  · exact refines_same rfl (by decide) (by decide) fun valid m => (effects_one valid m).2.1
  · exact refines_same rfl (by decide) (by decide) effects_zero_pick
  · exact refines_none rfl fun valid _ _ => effects_zero_roll valid
  · exact refines_none rfl fun valid _ _ => effects_one_roll_twice valid
  · exact refines_same rfl (by decide) (by decide) fun valid m => (effects_one valid m).2.2
  · exact refines_same rfl (by decide) (by decide) fun valid m => (effects_shuffle_pair valid m).1
  · exact refines_same rfl (by decide) (by decide) fun valid m => (effects_shuffle_pair valid m).2.1
  · exact refines_same rfl (by decide) (by decide) fun valid m => (effects_shuffle_pair valid m).2.2

/-- A hash of a hash has an opcode of its own. -/
theorem hashShortcuts_sound : hashShortcuts.Sound := by
  refine fixedRule_sound ?_
  simp only [List.forall_mem_cons]
  refine ⟨⟨by decide, ?_⟩, ⟨by decide, ?_⟩, nofun⟩
  all_goals
    refine refines_same rfl (by decide) (by decide) ?_
    intro valid m
    cases m <;> rfl

private theorem onNumbers_swap {f : Int → Int → Int} (hf : ∀ x y, f x y = f y x) (a b : Bytes)
    (m : Stack) : onNumbers f (a :: b :: m) = onNumbers f (b :: a :: m) := by
  simp only [onNumbers]
  cases ScriptNum.read? a <;> cases ScriptNum.read? b <;> simp [hf]

private theorem equal_swap (a b : Bytes) (m : Stack) :
    equal (a :: b :: m) = equal (b :: a :: m) := by
  simp only [equal, eq_comm]

private theorem binary_comm {op : BinaryOp} (h : .binary op ∈ commutative) (x y : Int) :
    binary op x y = binary op y x := by
  cases op with
  | add => exact Int.add_comm x y
  | boolAnd => simp only [binary, and_comm]
  | boolOr => simp only [binary, or_comm]
  | numEqual => simp only [binary, eq_comm]
  | numNotEqual => simp only [binary, ne_comm]
  | min => exact Int.min_comm x y
  | max => exact Int.max_comm x y
  | _ => exact absurd h (by decide)

private theorem effect_swap (valid : Checker) {o : Opcode} (ho : o ∈ commutative) (a b : Bytes)
    (m : Stack) : effect valid o (a :: b :: m) = effect valid o (b :: a :: m) := by
  cases o with
  | binary op => exact onNumbers_swap (binary_comm ho) a b m
  | numEqualVerify =>
    exact congrArg (Option.bind · _) (onNumbers_swap (fun x y => by simp [binary, eq_comm]) a b m)
  | equal => exact equal_swap a b m
  | equalVerify => exact congrArg (Option.bind · verify) (equal_swap a b m)
  | disabled d => rfl
  | _ => simp [commutative] at ho

/-- A swap in front of an opcode with operands in any order can go. -/
theorem commutativeOperations_sound : commutativeOperations.Sound := by
  have hside : ∀ o ∈ commutative, o.isPlain = true ∧
      cost (.opcode o) ≤ totalCost [.opcode .swap, .opcode o] := by decide
  refine fixedRule_sound ?_
  intro p hp
  obtain ⟨o, ho, rfl⟩ := List.mem_map.mp hp
  refine ⟨by simp, refines_one ?_ (hside o ho).2 (List.cons_ne_nil _ _) ?_ ?_⟩
  · simp only [List.all_cons, List.all_nil, (hside o ho).1]
    rfl
  · exact fun hdis => ⟨o, by simp, hdis⟩
  · intro valid m m' h
    obtain ⟨u, hu, h⟩ := Option.bind_eq_some_iff.mp h
    obtain ⟨w, hw, h⟩ := Option.bind_eq_some_iff.mp h
    cases h
    match m with
    | [] | [_] => cases hu
    | a :: b :: m =>
      cases hu
      exact (effect_swap valid ho a b m).trans hw

end NamedStack.Peephole
