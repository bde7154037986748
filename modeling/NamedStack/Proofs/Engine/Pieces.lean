import NamedStack.Engine.Run
import NamedStack.Proofs.Script.Tokens

/-!
# Running the pieces of a script

The engine runs the tokens of a serialized program. Here each token is seen as the piece that it
came from: it is counted, it acts on the state, and the number of items is looked at. What a piece
does is said apart from the limits, so that programs can be compared by what they do.
-/

namespace NamedStack

/-- Whether an opcode ends any script that holds it. -/
def Opcode.isDisabled : Opcode → Bool
  | .disabled _ => true
  | _ => false

/-- A code that fails wherever it stands is that of a disabled opcode. -/
theorem Opcode.isForbidden_code (o : Opcode) : Engine.isForbidden o.code = o.isDisabled :=
  forall_of_all (P := fun o => Engine.isForbidden o.code = o.isDisabled) (by decide +kernel) o

namespace Engine

open Script (Piece)

/-- The item that a push of data leaves: a lone zero byte is written as the opcode for zero. -/
def pushed (d : Bytes) : Bytes := if d = [0] then [] else d

/-- The item that a piece pushes, if it does nothing else. -/
def itemOf? : Piece → Option Bytes
  | .data d => some (pushed d)
  | .opcode (.small n) => some (ScriptNum.ofInt n.val)
  | .opcode _ => none

/-- Whether a piece fails wherever it stands. -/
def isDisabled : Piece → Bool
  | .opcode o => o.isDisabled
  | .data _ => false

/-- The number of opcodes that a piece counts for. -/
def cost : Piece → Nat
  | .opcode o => if lastPush < o.code then 1 else 0
  | .data _ => 0

/-- Count a piece. -/
def charge (p : Piece) (s : State) : Except ExecError State :=
  if cost p = 0 then .ok s else s.count (cost p)

/-- What a piece does, the limits left aside. -/
def act (valid : Checker) (s : State) : Piece → Except ExecError State
  | .opcode o => exec valid o s
  | .data d => .ok (if s.running then s.push (pushed d) else s)

/-- Run a piece. -/
def stepPiece (valid : Checker) (s : State) (p : Piece) : Except ExecError State :=
  if isDisabled p then .error .opcodeFailed
  else do (← act valid (← charge p s) p).bounded

/-- Run pieces one after another. -/
def runPieces (valid : Checker) (s : State) (ps : List Piece) : Except ExecError State :=
  ps.foldlM (stepPiece valid) s

/-! ### Tokens as pieces -/

private theorem step_opcode (valid : Checker) (s : State) (o : Opcode) :
    step valid s (.op o.code) = stepPiece valid s (.opcode o) := by
  rw [step, stepPiece, o.isForbidden_code, isDisabled]
  cases o.isDisabled with
  | true => rfl
  | false =>
    simp only [Bool.false_eq_true, if_false, charge, cost, execCode, o.ofCode?_code, act]
    split <;> rfl

private theorem ofInt_toNat (b : UInt8) (h0 : b ≠ 0) (h : b ≤ 16) :
    ScriptNum.ofInt b.toNat = [b] := by
  have hb : b.toNat ≤ 16 := h
  have hpos : b.toNat ≠ 0 := fun he => h0 (UInt8.toNat_inj.mp he)
  have hv : ScriptNum.value [b] = b.toNat := by
    simp only [ScriptNum.value, ScriptNum.isNegative, ScriptNum.magnitude, decide_eq_true_iff]
    rw [if_neg (by omega), Nat.mod_eq_of_lt (by omega)]
  have hm : ScriptNum.isMinimal [b] = true := by
    rw [ScriptNum.isMinimal_iff _ (by simp)]
    simp only [ScriptNum.magnitude, List.length_singleton]
    omega
  rw [← hv, ScriptNum.ofInt_value hm]

private theorem smallCode_toNat (b : UInt8) (h0 : b ≠ 0)
    (hs : -1 ≤ (b.toNat : Int) ∧ (b.toNat : Int) ≤ 16) :
    Opcode.smallCode ⟨b.toNat, hs⟩ = 0x50 + b := by
  have hpos : (b.toNat : Int) ≠ 0 := fun he => h0 (UInt8.toNat_inj.mp (by simpa using he))
  have hn : (80 + (b.toNat : Int)).toNat = 80 + b.toNat := by omega
  rw [Opcode.smallCode, if_neg hpos, hn, UInt8.ofNat_add]
  simp

/-- The token of a push is either the opcode of the small integer that is pushed, or it carries the
data. -/
theorem token_data (d : Bytes) :
    (∃ n : SmallInt, (Piece.data d).token = .op (Opcode.small n).code ∧
      ScriptNum.ofInt n.val = pushed d) ∨
    ∃ code, (Piece.data d).token = .push code d ∧ pushed d = d := by
  match d with
  | [] => exact .inl ⟨⟨0, by decide⟩, rfl, by simp [pushed, ScriptNum.ofInt, ScriptNum.digits,
      ScriptNum.withSign]⟩
  | [b] =>
    by_cases h0 : b = 0
    · subst b
      exact .inl ⟨⟨0, by decide⟩, rfl, by simp [pushed, ScriptNum.ofInt, ScriptNum.digits,
        ScriptNum.withSign]⟩
    · have hp : pushed [b] = [b] := if_neg (by simpa using h0)
      by_cases h16 : b ≤ 16
      · have hs : -1 ≤ (b.toNat : Int) ∧ (b.toNat : Int) ≤ 16 := by
          have hb : b.toNat ≤ 16 := h16
          omega
        refine .inl ⟨⟨b.toNat, hs⟩, ?_, ?_⟩
        · simp only [Piece.token, if_neg h0, if_pos h16]
          rw [Opcode.code, Opcode.info, smallCode_toNat b h0 hs]
        · rw [hp]
          exact ofInt_toNat b h0 h16
      · by_cases h81 : b = 0x81
        · subst b
          refine .inl ⟨⟨-1, by decide⟩, rfl, ?_⟩
          exact ScriptNum.ofInt_value (v := [0x81]) rfl
        · refine .inr ⟨1, ?_, hp⟩
          simp only [Piece.token, if_neg h0, if_neg h16, if_neg h81]
  | b :: c :: d =>
    have hp : pushed (b :: c :: d) = b :: c :: d := if_neg (by simp)
    simp only [Piece.token]
    by_cases h75 : (b :: c :: d).length ≤ 75
    · exact .inr ⟨_, if_pos h75, hp⟩
    · by_cases h255 : (b :: c :: d).length ≤ 255
      · exact .inr ⟨0x4C, by rw [if_neg h75, if_pos h255], hp⟩
      · exact .inr ⟨0x4D, by rw [if_neg h75, if_neg h255], hp⟩

private theorem exec_small (valid : Checker) (n : SmallInt) (s : State) :
    exec valid (.small n) s = .ok (if s.running then s.push (ScriptNum.ofInt n.val) else s) := by
  unfold exec perform State.onMain effect
  cases s.running <;> rfl

/-- Small integers are pushed without being counted. -/
theorem lastPush_lt_small (n : SmallInt) : ¬ lastPush < (Opcode.small n).code := by
  obtain ⟨n, h⟩ := n
  have hlo := h.1
  have hhi := h.2
  interval_cases n <;> decide +revert

/-- The engine runs the token of a piece as the piece. -/
theorem step_token (valid : Checker) (s : State) (p : Piece) (h : p.fits) :
    step valid s p.token = stepPiece valid s p := by
  cases p with
  | opcode o => exact step_opcode valid s o
  | data d =>
    have hstep : stepPiece valid s (.data d) =
        (if s.running then s.push (pushed d) else s).bounded := rfl
    rcases token_data d with ⟨n, ht, hn⟩ | ⟨code, ht, hn⟩
    · have hc : charge (.opcode (.small n)) s = .ok s := by
        rw [charge, cost, if_neg (lastPush_lt_small n), if_pos rfl]
      have hsmall : stepPiece valid s (.opcode (.small n)) =
          (charge (.opcode (.small n)) s).bind fun s =>
            (exec valid (.small n) s).bind State.bounded := rfl
      rw [ht, step_opcode, hstep, ← hn, hsmall, hc]
      change (exec valid (.small n) s).bind State.bounded = _
      rw [exec_small]
      rfl
    · rw [ht, hstep, hn, step, if_neg (Nat.not_lt.mpr h)]

/-- The engine runs the tokens of pieces as the pieces. -/
theorem run_tokens (valid : Checker) (s : State) (ps : List Piece) (h : ∀ p ∈ ps, p.fits) :
    run valid s (ps.map Piece.token) = runPieces valid s ps := by
  induction ps generalizing s with
  | nil => rfl
  | cons p ps ih =>
    have hp := step_token valid s p (h p List.mem_cons_self)
    rw [run, runPieces, List.map_cons, List.foldlM_cons, List.foldlM_cons, hp]
    congr 1
    funext t
    exact ih t fun q hq => h q (List.mem_cons_of_mem p hq)

/-- A serialized program is loaded as the tokens of its pieces. -/
theorem load_forms (ps : List Piece) (h : ∀ p ∈ ps, p.fits)
    (hl : (Script.forms ps).length ≤ Script.maxLen) :
    load (Script.forms ps) = .ok (ps.map Piece.token) := by
  rw [load, if_neg (Nat.not_lt.mpr hl), Script.tokens_forms ps h]

/-- The first piece, and then the rest. -/
theorem runPieces_cons (valid : Checker) (s : State) (p : Piece) (ps : List Piece) :
    runPieces valid s (p :: ps) = (stepPiece valid s p).bind fun t => runPieces valid t ps := rfl

/-- Pieces, and then others. -/
theorem runPieces_append (valid : Checker) (s : State) (ps qs : List Piece) :
    runPieces valid s (ps ++ qs) = (runPieces valid s ps).bind fun t => runPieces valid t qs :=
  List.foldlM_append

/-! ### Single opcodes -/

/-- An item is true if the number it stands for is not zero. -/
theorem isTrue_eq (v : Bytes) : isTrue v = decide (ScriptNum.value v ≠ 0) := by
  have hmag : isTrue v = decide (ScriptNum.magnitude v ≠ 0) := by
    fun_induction isTrue v with
    | case1 => rfl
    | case2 b =>
      have hb : ∀ b : UInt8, (b != 0 && b != 0x80) = decide (b.toNat % 128 ≠ 0) := by decide +kernel
      exact hb b
    | case3 b rest hne ih =>
      obtain ⟨c, rest, rfl⟩ := List.exists_cons_of_ne_nil hne
      have hb : (b != 0) = decide (b.toNat ≠ 0) := by
        rw [bne, beq_eq_decide, ← decide_not]
        simp only [ne_eq, ← UInt8.toNat_inj, UInt8.toNat_zero]
      rw [ih, hb, ScriptNum.magnitude, ← Bool.decide_or]
      exact decide_eq_decide.mpr (by omega)
  rw [hmag, decide_eq_decide, ScriptNum.value]
  split <;> omega

variable {s : State}

/-- In code that does not run, only the opcodes of conditionals do something. -/
theorem exec_skipped (valid : Checker) {o : Opcode} (ho : o.isMarker = false)
    (hr : s.running = false) : exec valid o s = .ok s := by
  cases o with
  | opIf | opNotIf | opElse | opEndIf => cases ho
  | _ => simp only [exec, hr, Bool.false_eq_true, if_false]

/-- Acting on the main stack. -/
theorem onMain_iff (f : Stack → Option Stack) (s t : State) :
    s.onMain f = .ok t ↔ ∃ m, f s.main = some m ∧ t = { s with main := m } := by
  unfold State.onMain
  cases f s.main with
  | none => simp
  | some m => simp [eq_comm]

/-- Moving an item to the alt stack. -/
theorem exec_toAltStack_iff (valid : Checker) (hr : s.running = true) (t : State) :
    exec valid .toAltStack s = .ok t ↔
      ∃ a main, s.main = a :: main ∧ t = { s with main := main, alt := a :: s.alt } := by
  simp only [exec, perform, hr, if_true]
  cases s.main with
  | nil => simp
  | cons a main => simp [eq_comm]

/-- Moving an item from the alt stack. -/
theorem exec_fromAltStack_iff (valid : Checker) (hr : s.running = true) (t : State) :
    exec valid .fromAltStack s = .ok t ↔
      ∃ a alt, s.alt = a :: alt ∧ t = { s with main := a :: s.main, alt := alt } := by
  simp only [exec, perform, hr, if_true]
  cases s.alt with
  | nil => simp
  | cons a alt => simp [eq_comm]

/-- Checking several signatures counts their keys and then acts on the main stack. -/
theorem exec_multisig (valid : Checker) {o : Opcode}
    (ho : o = .checkMultiSig ∨ o = .checkMultiSigVerify) (hr : s.running = true) :
    exec valid o s = match multisig s.main with
      | none => .error .opcodeFailed
      | some m => (s.count m.keys.length).bind fun s => s.onMain (effect valid o) := by
  rcases ho with rfl | rfl
  all_goals
    simp only [exec, perform, hr, if_true]
    rfl

/-- Opening a conditional in code that runs. -/
theorem openCond_iff (hr : s.running = true) (test : Bytes → Bool) (t : State) :
    s.openCond test = .ok t ↔
      ∃ a main, s.main = a :: main ∧
        t = { s with main := main, conds := .ofBool (test a) :: s.conds } := by
  simp only [State.openCond, hr, if_true]
  cases s.main with
  | nil => simp
  | cons a main => simp [eq_comm]

/-- Opening a conditional in code that does not run. -/
theorem openCond_skipped (hr : s.running = false) (test : Bytes → Bool) :
    s.openCond test = .ok { s with conds := .inert :: s.conds } := by
  simp only [State.openCond, hr, Bool.false_eq_true, if_false]

/-- Going on to the other arm. -/
theorem flip_iff (s t : State) :
    s.flip = .ok t ↔ ∃ c conds, s.conds = c :: conds ∧
      t = { s with conds := c.toggle :: conds } := by
  unfold State.flip
  cases s.conds with
  | nil => simp
  | cons c conds => simp [eq_comm]

/-- Closing a conditional. -/
theorem close_iff (s t : State) :
    s.close = .ok t ↔ ∃ c conds, s.conds = c :: conds ∧ t = { s with conds := conds } := by
  unfold State.close
  cases s.conds with
  | nil => simp
  | cons c conds => simp [eq_comm]

end Engine

end NamedStack
