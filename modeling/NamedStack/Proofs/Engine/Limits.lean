import NamedStack.Proofs.Engine.Refinement

/-!
# Runs up to the limits

The engine counts opcodes, items and the bytes of an element, and stops a run that exceeds a limit.
Whether a run gets that far is left open here: pieces lead from one state to another if the engine,
started in the first, either exceeds a limit or ends in the second. Within the limits no stack has
so many items that a position in it could not be read as a number.
-/

namespace NamedStack

namespace Engine

open Script (Piece)

/-- Unless a limit is exceeded, the engine runs the pieces from one state to another. What was
counted before and is counted after is left open. -/
def Leads (valid : Checker) (s : State) (ps : List Piece) (t : State) : Prop :=
  ∀ n, run valid { s with ops := n } (ps.map Piece.token) = .error .limitExceeded ∨
    ∃ k, run valid { s with ops := n } (ps.map Piece.token) = .ok { t with ops := k }

private theorem run_append (valid : Checker) (s : State) (ts us : List Script.Token) :
    run valid s (ts ++ us) = (run valid s ts).bind fun t => run valid t us :=
  List.foldlM_append

/-- The engine runs the token of one piece as the piece, unless its element is too big. -/
theorem run_piece (valid : Checker) (s : State) (p : Piece) :
    run valid s [p.token] = .error .limitExceeded ∨
      run valid s [p.token] = stepPiece valid s p := by
  have hone : run valid s [p.token] = step valid s p.token := by
    change (step valid s p.token).bind .ok = _
    cases step valid s p.token <;> rfl
  rw [hone]
  by_cases hf : p.fits
  · exact .inr (step_token valid s p hf)
  · left
    cases p with
    | opcode o => exact absurd trivial hf
    | data d =>
      -- an element that does not fit has more than one byte
      have hlen : Script.maxElement < d.length := Nat.not_le.mp hf
      match d with
      | [] | [_] => simp [Script.maxElement] at hlen
      | a :: b :: d =>
        have h75 : ¬ (a :: b :: d).length ≤ 75 := by
          unfold Script.maxElement at hlen
          omega
        have h255 : ¬ (a :: b :: d).length ≤ 255 := by
          unfold Script.maxElement at hlen
          omega
        have ht : (Piece.data (a :: b :: d)).token = .push 0x4D (a :: b :: d) := by
          rw [Piece.token, if_neg h75, if_neg h255]
          all_goals simp
        rw [ht, step, if_pos hlen]

private theorem count_or_limit (s : State) (n : Nat) :
    s.count n = .error .limitExceeded ∨ s.count n = .ok { s with ops := s.ops + n } := by
  unfold State.count
  split
  · exact .inl rfl
  · exact .inr rfl

private theorem charge_or_limit (p : Piece) (s : State) :
    charge p s = .error .limitExceeded ∨ charge p s = .ok { s with ops := s.ops + cost p } := by
  unfold charge
  by_cases hc : cost p = 0
  · rw [if_pos hc, hc]
    exact .inr rfl
  · rw [if_neg hc]
    exact count_or_limit s _

variable {p : Piece} {u : State}

/-- A piece acts, unless a limit is exceeded; the items that it leaves are then not too many. -/
theorem stepPiece_or_limit {valid : Checker} {s t : State} (hd : isDisabled p = false)
    (ha : ∀ n, act valid { s with ops := n } p = .ok { t with ops := n }) :
    stepPiece valid s p = .error .limitExceeded ∨
      stepPiece valid s p = .ok { t with ops := s.ops + cost p } ∧
        t.main.length + t.alt.length ≤ maxItems := by
  have hstep : stepPiece valid s p =
      (charge p s).bind fun s => (act valid s p).bind State.bounded := by
    rw [stepPiece, hd]
    rfl
  rcases charge_or_limit p s with hc | hc
  · rw [hstep, hc]
    exact .inl rfl
  · have hbounded : stepPiece valid s p = State.bounded { t with ops := s.ops + cost p } := by
      rw [hstep, hc]
      exact congrArg (Except.bind · State.bounded) (ha _)
    rw [hbounded]
    unfold State.bounded
    split
    · exact .inl rfl
    · next h => exact .inr ⟨rfl, Nat.not_lt.mp h⟩

variable {m : Stack} {o : Opcode} {code : UInt8}

private theorem enabled_of_effectOf {valid : Checker} {m' : Stack}
    (he : effectOf valid p m = some m') : isDisabled p = false := by
  by_contra hd
  rw [effectOf_disabled valid (Bool.eq_true_of_not_eq_false hd)] at he
  cases he

private theorem act_of_effectOf {valid : Checker} (hp : isPlain p = true) {s : State}
    (hr : s.running = true) (he : effectOf valid p s.main = some m) (n : Nat) :
    act valid { s with ops := n } p = .ok { s with main := m, ops := n } := by
  rw [act_plain valid hp, if_pos (show State.running { s with ops := n } = true from hr)]
  exact (onMain_iff _ _ _).mpr ⟨m, he, rfl⟩

namespace Leads

variable {valid : Checker}

/-- Without pieces nothing changes. -/
theorem nil (s : State) : Leads valid s [] s := fun n => .inr ⟨n, rfl⟩

variable {s t : State} {p : Piece}

variable {qs : List Piece} {m : Stack} {a : Bytes}

/-- Pieces, and then others. -/
theorem append {ps : List Piece} (h : Leads valid s ps t) (k : Leads valid t qs u) :
    Leads valid s (ps ++ qs) u := by
  intro n
  rw [List.map_append, run_append]
  rcases h n with h | ⟨m, h⟩
  · rw [h]
    exact .inl rfl
  · rw [h]
    exact k m

/-- One piece, and then the others. -/
theorem cons (h : Leads valid s [p] t) (k : Leads valid t qs u) : Leads valid s (p :: qs) u :=
  append h k

/-- A piece leads to where it acts. -/
theorem of_act (hd : isDisabled p = false)
    (ha : ∀ n, act valid { s with ops := n } p = .ok { t with ops := n }) :
    Leads valid s [p] t := by
  intro n
  rcases run_piece valid { s with ops := n } p with hp | hp
  · exact .inl hp
  · rcases stepPiece_or_limit (s := { s with ops := n }) hd ha with h | ⟨h, -⟩
    · exact .inl (hp.trans h)
    · exact .inr ⟨_, hp.trans h⟩

/-- A plain piece leads to where its effect does. -/
theorem plain (hp : isPlain p = true) (hr : s.running = true)
    (he : effectOf valid p s.main = some m) : Leads valid s [p] { s with main := m } :=
  of_act (enabled_of_effectOf he) (act_of_effectOf hp hr he)

/-- An item moves to the alt stack. -/
theorem toAltStack (hr : s.running = true) (hm : s.main = a :: m) :
    Leads valid s [.opcode .toAltStack] { s with main := m, alt := a :: s.alt } := by
  refine of_act rfl fun n => ?_
  exact (exec_toAltStack_iff valid (by exact hr) _).mpr ⟨a, m, hm, rfl⟩

/-- An item moves from the alt stack. -/
theorem fromAltStack (hr : s.running = true) {alt : Stack} (ha : s.alt = a :: alt) :
    Leads valid s [.opcode .fromAltStack] { s with main := a :: s.main, alt := alt } := by
  refine of_act rfl fun n => ?_
  exact (exec_fromAltStack_iff valid (by exact hr) _).mpr ⟨a, alt, ha, rfl⟩

end Leads

/-! ### Positions on the stack -/

/-- The piece that pushes an integer. -/
def numberPiece (n : Int) : Piece :=
  match SmallInt.ofInt? n with
  | some k => .opcode (.small k)
  | none => .data (ScriptNum.ofInt n)

/-- What an integer is written as. -/
theorem writes_number (n : Int) : Script.Writes (.number n) (numberPiece n) := by
  unfold Script.Writes Instr.number numberPiece
  cases SmallInt.ofInt? n <;> rfl

/-- The piece of an integer pushes it. -/
theorem isPush_numberPiece (n : Int) : IsPush (numberPiece n) (ScriptNum.ofInt n) := by
  refine isPush_of_itemOf? ?_
  unfold numberPiece
  cases hk : SmallInt.ofInt? n with
  | none =>
    have hne : ScriptNum.ofInt n ≠ [0] := by
      intro h
      have hmin := ScriptNum.isMinimal_ofInt n
      rw [h] at hmin
      cases hmin
    exact congrArg some (if_neg hne)
  | some k =>
    have hval : k.val = n := by
      unfold SmallInt.ofInt? at hk
      split at hk <;> cases hk
      rfl
    exact congrArg (fun m => some (ScriptNum.ofInt m)) hval

namespace Leads

variable {valid : Checker} {s : State}

variable {n : Nat}

/-- A number that says a position in the stack is read by the opcode behind it. -/
theorem number {o : Opcode} {f : Int → Stack → Option Stack} (ho : o.isPlain = true)
    (hf : ∀ m, effect valid o m = withNumber f m) (hr : s.running = true) (hn : n ≤ s.main.length)
    {m : Stack} (hm : f n s.main = some m) :
    Leads valid s [numberPiece n, .opcode o] { s with main := m } := by
  have hpush := isPush_numberPiece n
  have hact := act_of_effectOf hpush.plain hr (hpush.effect valid s.main)
  intro k
  rw [show [numberPiece n, .opcode o].map Piece.token =
    [(numberPiece n).token] ++ [Piece.token (.opcode o)] from rfl, run_append]
  rcases run_piece valid { s with ops := k } (numberPiece n) with hp | hp
  · rw [hp]
    exact .inl rfl
  rcases stepPiece_or_limit (s := { s with ops := k }) (t := { s with main := _ }) hpush.enabled
    hact with h | ⟨h, hb⟩
  · rw [hp, h]
    exact .inl rfl
  · -- within the limits a position is a number of at most four bytes
    have hsmall : (n : Int).natAbs < 2 ^ 31 := by
      simp only [List.length_cons, maxItems] at hb
      omega
    have he : effectOf valid (.opcode o) (ScriptNum.ofInt n :: s.main) = some m := by
      change effect valid o (ScriptNum.ofInt n :: s.main) = some m
      rw [hf, withNumber, ScriptNum.read?_ofInt _ hsmall]
      exact hm
    rw [hp, h]
    exact plain (s := { s with main := ScriptNum.ofInt n :: s.main }) (p := .opcode o) ho hr he
      (k + cost (numberPiece n))

variable {a : Bytes}

/-- The item at a position is copied to the top. -/
theorem pick (hr : s.running = true) (h : s.main[n]? = some a) :
    Leads valid s [numberPiece n, .opcode .pick] { s with main := a :: s.main } := by
  have hn : n < s.main.length := (List.getElem?_eq_some_iff.mp h).1
  refine number rfl (fun _ => rfl) hr hn.le ?_
  rw [Engine.pick, if_neg (by omega), Int.toNat_natCast, h]
  rfl

/-- The item at a position is moved to the top. -/
theorem roll (hr : s.running = true) (h : s.main[n]? = some a) :
    Leads valid s [numberPiece n, .opcode .roll] { s with main := a :: s.main.eraseIdx n } := by
  have hn : n < s.main.length := (List.getElem?_eq_some_iff.mp h).1
  refine number rfl (fun _ => rfl) hr hn.le ?_
  rw [Engine.roll, if_neg (by omega), Int.toNat_natCast, h]
  rfl

end Leads

/-! ### Runs that fail -/

/-- The engine does not run the pieces to their end, whatever was counted before. -/
def Stops (valid : Checker) (s : State) (ps : List Piece) : Prop :=
  ∀ n, ∃ e, run valid { s with ops := n } (ps.map Piece.token) = .error e

namespace Stops

variable {valid : Checker} {s t : State} {ps : List Piece}

/-- Pieces behind those that stop are not reached. -/
theorem append (h : Stops valid s ps) (qs : List Piece) : Stops valid s (ps ++ qs) := by
  intro n
  obtain ⟨e, he⟩ := h n
  refine ⟨e, ?_⟩
  rw [List.map_append, run_append, he]
  rfl

/-- Pieces can lead to others that stop. -/
theorem of_leads (h : Leads valid s ps t) {qs : List Piece} (k : Stops valid t qs) :
    Stops valid s (ps ++ qs) := by
  intro n
  rw [List.map_append, run_append]
  rcases h n with h | ⟨m, h⟩
  · rw [h]
    exact ⟨_, rfl⟩
  · rw [h]
    exact k m

variable {p : Piece}

private theorem of_stepPiece (h : ∀ n, ∃ e, stepPiece valid { s with ops := n } p = .error e) :
    Stops valid s [p] := by
  intro n
  obtain ⟨e, he⟩ := h n
  rcases run_piece valid { s with ops := n } p with hp | hp
  · exact ⟨_, hp⟩
  · exact ⟨e, hp.trans he⟩

/-- Disabled opcodes stop. -/
theorem of_disabled (hd : isDisabled p = true) : Stops valid s [p] :=
  of_stepPiece fun n => ⟨.opcodeFailed, by rw [stepPiece, if_pos hd]⟩

/-- A piece that fails to act stops a run. -/
theorem of_act (ha : ∀ n, ∃ e, act valid { s with ops := n } p = .error e) : Stops valid s [p] := by
  by_cases hd : isDisabled p = true
  · exact of_disabled hd
  refine of_stepPiece fun n => ?_
  have hstep : stepPiece valid { s with ops := n } p =
      (charge p { s with ops := n }).bind fun s => (act valid s p).bind State.bounded := by
    rw [stepPiece, if_neg hd]
    rfl
  rcases charge_or_limit p { s with ops := n } with hc | hc
  · exact ⟨_, by rw [hstep, hc]; rfl⟩
  · obtain ⟨e, he⟩ := ha (n + cost p)
    exact ⟨e, by rw [hstep, hc]; exact congrArg (Except.bind · State.bounded) he⟩

end Stops

/-- A plain piece does nothing in code that is not run. -/
theorem Leads.skipped {valid : Checker} {s : State} (hp : isPlain p = true)
    (hd : isDisabled p = false) (hr : s.running = false) : Leads valid s [p] s := by
  refine of_act hd fun n => ?_
  rw [act_plain valid hp,
    if_neg (by rw [show State.running { s with ops := n } = false from hr]; decide)]

/-! ### Code that leaves the alt stack alone -/

/-- Whether a token moves nothing between the stacks. -/
def keepsAlt : Script.Token → Bool
  | .op code => code != Opcode.toAltStack.code && code != Opcode.fromAltStack.code
  | .push _ _ => true

private theorem openCond_frame (test : Bytes → Bool) {s t : State} (hm : t.main = s.main)
    (hc : t.conds = s.conds) (h : s.openCond test = .ok u) :
    t.openCond test = .ok { t with main := u.main, conds := u.conds } := by
  have hr : t.running = s.running := by rw [State.running, State.running, hc]
  cases hs : s.running with
  | false =>
    rw [openCond_skipped hs] at h
    cases h
    rw [openCond_skipped (hr.trans hs), ← hm, ← hc]
  | true =>
    obtain ⟨a, main, ha, rfl⟩ := (openCond_iff hs test u).mp h
    refine (openCond_iff (hr.trans hs) test _).mpr ⟨a, main, hm.trans ha, ?_⟩
    rw [hc]

private theorem exec_multisig_frame (valid : Checker)
    (ho : o = .checkMultiSig ∨ o = .checkMultiSigVerify) {s t : State} (hm : t.main = s.main)
    (hc : t.conds = s.conds) (hs : s.running = true) (ht : t.running = true)
    (h : exec valid o s = .ok u) :
    exec valid o t = .error .limitExceeded ∨
      ∃ k, exec valid o t = .ok { t with main := u.main, conds := u.conds, ops := k } := by
  rw [exec_multisig valid ho hs] at h
  rw [exec_multisig valid ho ht, hm]
  cases hsig : multisig s.main with
  | none => rw [hsig] at h; cases h
  | some m =>
    rw [hsig] at h
    obtain ⟨v, hv, h⟩ := bind_eq_ok_iff.mp h
    obtain ⟨w, hw, rfl⟩ := (onMain_iff _ _ _).mp h
    rcases count_or_limit s m.keys.length with hs | hs
    · cases hs.symm.trans hv
    · cases hs.symm.trans hv
      dsimp only
      rcases count_or_limit t m.keys.length with hk | hk
      · rw [hk]
        exact .inl rfl
      · rw [hk]
        refine .inr ⟨t.ops + m.keys.length, (onMain_iff _ _ _).mpr ⟨w, hm ▸ hw, ?_⟩⟩
        rw [← hc]

/-- What an opcode does to the main stack and the conditionals depends on nothing else, apart from
the limits. -/
theorem exec_frame (valid : Checker) (ho : o ≠ .toAltStack ∧ o ≠ .fromAltStack) {s t : State}
    (hm : t.main = s.main) (hc : t.conds = s.conds) (h : exec valid o s = .ok u) :
    exec valid o t = .error .limitExceeded ∨
      ∃ k, exec valid o t = .ok { t with main := u.main, conds := u.conds, ops := k } := by
  have hr : t.running = s.running := by rw [State.running, State.running, hc]
  by_cases hskip : o.isMarker = false ∧ s.running = false
  · rw [exec_skipped valid hskip.1 hskip.2] at h
    cases h
    refine .inr ⟨t.ops, ?_⟩
    rw [exec_skipped valid hskip.1 (hr.trans hskip.2), ← hm, ← hc]
  · have hrun (hmark : o.isMarker = false) : s.running = true :=
      Bool.eq_true_of_not_eq_false fun hs => hskip ⟨hmark, hs⟩
    by_cases hp : o.isPlain = true
    · have hs : s.running = true := hrun (by cases o <;> first | rfl | cases hp)
      obtain ⟨m, he, rfl⟩ := (exec_plain_iff valid hp hs u).mp h
      refine .inr ⟨t.ops, (exec_plain_iff valid hp (hr.trans hs) _).mpr ⟨m, hm ▸ he, ?_⟩⟩
      rw [hc]
    · cases o with
      | opIf => exact .inr ⟨t.ops, openCond_frame _ hm hc h⟩
      | opNotIf => exact .inr ⟨t.ops, openCond_frame _ hm hc h⟩
      | opElse =>
        obtain ⟨c, conds, hcs, rfl⟩ := (flip_iff s u).mp h
        refine .inr ⟨t.ops, (flip_iff t _).mpr ⟨c, conds, hc.trans hcs, ?_⟩⟩
        rw [hm]
      | opEndIf =>
        obtain ⟨c, conds, hcs, rfl⟩ := (close_iff s u).mp h
        refine .inr ⟨t.ops, (close_iff t _).mpr ⟨c, conds, hc.trans hcs, ?_⟩⟩
        rw [hm]
      | toAltStack => exact absurd rfl ho.1
      | fromAltStack => exact absurd rfl ho.2
      | checkMultiSig =>
        exact exec_multisig_frame valid (.inl rfl) hm hc (hrun rfl) (hr.trans (hrun rfl)) h
      | checkMultiSigVerify =>
        exact exec_multisig_frame valid (.inr rfl) hm hc (hrun rfl) (hr.trans (hrun rfl)) h
      | _ => exact absurd rfl hp

private theorem execCode_frame (valid : Checker) (hcode : keepsAlt (.op code) = true) {s t : State}
    (hm : t.main = s.main) (hc : t.conds = s.conds) (h : execCode valid code s = .ok u) :
    execCode valid code t = .error .limitExceeded ∨
      ∃ k, execCode valid code t = .ok { t with main := u.main, conds := u.conds, ops := k } := by
  unfold execCode at h ⊢
  cases ho : Opcode.ofCode? code with
  | none =>
    rw [ho] at h
    have hr : t.running = s.running := by rw [State.running, State.running, hc]
    cases hs : s.running with
    | true => rw [hs] at h; cases h
    | false =>
      rw [hs] at h
      cases h
      rw [hr, hs]
      refine .inr ⟨t.ops, ?_⟩
      rw [← hm, ← hc]
      rfl
  | some o =>
    rw [ho] at h
    have hoc := Opcode.code_of_ofCode? ho
    obtain ⟨hto, hfrom⟩ := (Bool.and_eq_true _ _).mp hcode
    refine exec_frame valid ⟨?_, ?_⟩ hm hc h
    · rintro rfl
      rw [hoc] at hto
      simp at hto
    · rintro rfl
      rw [hoc] at hfrom
      simp at hfrom

private theorem bounded_or_limit (s : State) :
    s.bounded = .error .limitExceeded ∨ s.bounded = .ok s := by
  unfold State.bounded
  split
  · exact .inl rfl
  · exact .inr rfl

private theorem bounded_frame {s : State} (h : s.bounded = .ok u) {t : State} {k : Nat} :
    State.bounded { t with main := s.main, conds := s.conds, ops := k } = .error .limitExceeded ∨
      State.bounded { t with main := s.main, conds := s.conds, ops := k } =
        .ok { t with main := u.main, conds := u.conds, ops := k } := by
  rcases bounded_or_limit s with hs | hs
  · cases hs.symm.trans h
  · cases hs.symm.trans h
    exact bounded_or_limit _

private theorem step_op (valid : Checker) (s : State) (code : UInt8) :
    step valid s (.op code) =
      if isForbidden code then .error .opcodeFailed
      else (if lastPush < code then s.count 1 else .ok s).bind fun s =>
        (execCode valid code s).bind State.bounded := by
  rw [step]
  by_cases hc : lastPush < code
  · simp only [if_pos hc]
    rfl
  · simp only [if_neg hc]
    rfl

private theorem charged_or_limit (code : UInt8) (s : State) :
    (if lastPush < code then s.count 1 else .ok s) = .error .limitExceeded ∨
      ∃ n, (if lastPush < code then s.count 1 else .ok s) = .ok { s with ops := n } := by
  split
  · exact (count_or_limit s 1).imp id fun h => ⟨_, h⟩
  · exact .inr ⟨s.ops, rfl⟩

private theorem charged_frame {s : State}
    (h : (if lastPush < code then s.count 1 else .ok s) = .ok u) :
    u.main = s.main ∧ u.conds = s.conds := by
  rcases charged_or_limit code s with hs | ⟨n, hs⟩
  · cases hs.symm.trans h
  · cases hs.symm.trans h
    exact ⟨rfl, rfl⟩

/-- A token that moves nothing between the stacks does the same to the main stack and the
conditionals whatever lies on the alt stack, apart from the limits. -/
theorem step_frame (valid : Checker) {tok : Script.Token} (htok : keepsAlt tok = true) {s t : State}
    (hm : t.main = s.main) (hc : t.conds = s.conds) (h : step valid s tok = .ok u) :
    step valid t tok = .error .limitExceeded ∨
      ∃ k, step valid t tok = .ok { t with main := u.main, conds := u.conds, ops := k } := by
  have hr : t.running = s.running := by rw [State.running, State.running, hc]
  cases tok with
  | push code data =>
    rw [step] at h ⊢
    by_cases hlen : Script.maxElement < data.length
    · rw [if_pos hlen] at h
      cases h
    · rw [if_neg hlen] at h ⊢
      have hpush : (if t.running then t.push data else t) =
          { t with
            main := (if s.running then s.push data else s).main
            conds := (if s.running then s.push data else s).conds } := by
        rw [hr]
        split <;> simp [State.push, ← hm, ← hc]
      rw [hpush]
      exact (bounded_frame h).imp id fun hk => ⟨t.ops, hk⟩
  | op code =>
    rw [step_op] at h ⊢
    by_cases hf : isForbidden code = true
    · rw [if_pos hf] at h
      cases h
    · rw [if_neg hf] at h ⊢
      obtain ⟨s₁, hs₁, h⟩ := bind_eq_ok_iff.mp h
      obtain ⟨v, hv, h⟩ := bind_eq_ok_iff.mp h
      obtain ⟨hm₁, hc₁⟩ := charged_frame hs₁
      rcases charged_or_limit code t with ht | ⟨n, ht⟩
      · rw [ht]
        exact .inl rfl
      · rw [ht]
        rcases execCode_frame valid htok (t := { t with ops := n }) (hm.trans hm₁.symm)
          (hc.trans hc₁.symm) hv with he | ⟨k, he⟩
        · exact .inl (congrArg (Except.bind · State.bounded) he)
        · have hstep := congrArg (Except.bind · State.bounded) he
          exact (bounded_frame h).imp hstep.trans fun hb => ⟨k, hstep.trans hb⟩

end Engine

end NamedStack
