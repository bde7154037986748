import NamedStack.Proofs.ScriptNum
import NamedStack.Script.Token

/-!
# Tokens of serialized programs

Each piece of a script is read back as one token, whatever follows it. A program is serialized
exactly if each of its instructions has a piece, no pushed element is too big and the script is not
too long; the tokens of the script are then those of the pieces, in order.
-/

namespace NamedStack

/-- What is related to a list has the parts of it. -/
theorem forall₂_append_left {α β : Type} {R : α → β → Prop} {a b : List α} {l : List β}
    (h : List.Forall₂ R (a ++ b) l) :
    ∃ l₁ l₂, l = l₁ ++ l₂ ∧ List.Forall₂ R a l₁ ∧ List.Forall₂ R b l₂ := by
  refine ⟨l.take a.length, l.drop a.length, (List.take_append_drop ..).symm, ?_, ?_⟩
  · exact (List.forall₂_take_append _ _ _ h.flip).flip
  · exact (List.forall₂_drop_append _ _ _ h.flip).flip

namespace Opcode

/-- The list of all opcodes leaves none out. -/
theorem mem_all (o : Opcode) : o ∈ all := by
  cases o with
  | small n =>
    obtain ⟨n, h⟩ := n
    have hlo := h.1
    have hhi := h.2
    interval_cases n <;> decide +revert
  | unary u => cases u <;> decide
  | binary b => cases b <;> decide
  | hash h => cases h <;> decide
  | reserved r => cases r <;> decide
  | disabled d => cases d <;> decide
  | _ => decide

/-- What holds of the listed opcodes holds of every opcode. -/
theorem forall_of_all {P : Opcode → Prop} (h : ∀ o ∈ all, P o) (o : Opcode) : P o := h o (mem_all o)

/-- An opcode is found by its code. -/
theorem ofCode?_code (o : Opcode) : ofCode? o.code = some o :=
  forall_of_all (P := fun o => ofCode? o.code = some o) (by decide +kernel) o

/-- What is found by a code has that code. -/
theorem code_of_ofCode? {c : UInt8} {o : Opcode} (h : ofCode? c = some o) : o.code = c :=
  of_decide_eq_true (List.find?_some (p := fun o : Opcode => decide (o.code = c)) h)

/-- No opcode has the code of a push with data. -/
theorem carriesData_code (o : Opcode) : Script.carriesData o.code = false :=
  forall_of_all (P := fun o => Script.carriesData o.code = false) (by decide +kernel) o

end Opcode

namespace Script

namespace Piece

/-- The token of a piece. -/
def token : Piece → Token
  | .opcode o => .op o.code
  | .data [] => .op 0
  | .data [b] =>
    if b = 0 then .op 0
    else if b ≤ 16 then .op (0x50 + b)
    else if b = 0x81 then .op 0x4F
    else .push 1 [b]
  | .data d =>
    if d.length ≤ 75 then .push (UInt8.ofNat d.length) d
    else if d.length ≤ 255 then .push 0x4C d
    else .push 0x4D d

/-- Whether the element that a piece pushes is not too big. -/
def fits : Piece → Prop
  | .opcode _ => True
  | .data d => d.length ≤ maxElement

end Piece

/-! ### Reading one token -/

private theorem tokens_cons {code : UInt8} {rest left : Bytes} {t : Token}
    (h : readToken code rest = .ok (t, left)) :
    tokens (code :: rest) = (t :: (tokens left).1, (tokens left).2) := by
  rw [tokens]
  split
  · next f hf => rw [h] at hf; cases hf
  · next t' left' hr =>
    rw [h] at hr
    cases hr
    rfl

private theorem readToken_op {code : UInt8} (h : carriesData code = false) (rest : Bytes) :
    readToken code rest = .ok (.op code, rest) := by
  rw [readToken, h]
  rfl

private theorem toNat_ofNat_of_lt {n : Nat} (h : n < 256) : (UInt8.ofNat n).toNat = n := by
  rw [UInt8.toNat_ofNat', Nat.mod_eq_of_lt h]

private theorem readToken_plain (d rest : Bytes) (h : d ≠ []) (hl : d.length ≤ 75) :
    readToken (UInt8.ofNat d.length) (d ++ rest) =
      .ok (.push (UInt8.ofNat d.length) d, rest) := by
  have hpos : 0 < d.length := List.length_pos_iff.mpr h
  have hn : (UInt8.ofNat d.length).toNat = d.length := toNat_ofNat_of_lt (by omega)
  have h75 : UInt8.ofNat d.length ≤ 75 := by
    rw [UInt8.le_iff_toNat_le, hn]
    exact hl
  have hc : carriesData (UInt8.ofNat d.length) = true := by
    simp only [carriesData, Bool.and_eq_true, decide_eq_true_iff, UInt8.le_iff_toNat_le, hn]
    exact ⟨hpos, Nat.le_trans hl (by decide)⟩
  rw [readToken, if_pos hc, if_pos h75, readPlain, hn, if_neg (by simp), cut]
  simp

private theorem toNatLE_littleEndian_two (n : Nat) (h : n < 65536) :
    Bytes.toNatLE (Bytes.littleEndian 2 n) = n := by
  simp only [Bytes.littleEndian, Bytes.toNatLE, UInt8.toNat_ofNat']
  omega

private theorem readToken_counted (code : UInt8) (width d rest : Bytes)
    (hc : carriesData code = true) (h75 : ¬ code ≤ 75) (hw : width.length = countWidth code)
    (hn : Bytes.toNatLE width = d.length) (hd : d.length ≤ maxElement) :
    readToken code (width ++ d ++ rest) = .ok (.push code d, rest) := by
  have htake : (width ++ d ++ rest).take (countWidth code) = width := by
    rw [← hw, List.append_assoc, List.take_left]
  have hdrop : (width ++ d ++ rest).drop (countWidth code) = d ++ rest := by
    rw [← hw, List.append_assoc, List.drop_left]
  have hcount : count code (width ++ d ++ rest) = d.length := by
    unfold maxElement at hd
    rw [count, htake, hn, signed32, if_pos (by omega)]
  rw [readToken, if_pos hc, if_neg h75, readCounted, hcount, hdrop, if_neg, if_neg, cut]
  · simp
  · simp only [List.length_append, ← hw]
    omega
  · simp only [List.length_append, ← hw]
    omega

private theorem tokens_pushForm (d rest : Bytes) (h : d.length ≤ maxElement) :
    tokens (pushForm d ++ rest) =
      ((Piece.data d).token :: (tokens rest).1, (tokens rest).2) := by
  match d with
  | [] => exact tokens_cons (readToken_op rfl rest)
  | [b] =>
    by_cases h0 : b = 0
    · subst b
      exact tokens_cons (readToken_op rfl rest)
    · by_cases h16 : b ≤ 16
      · have hop : carriesData (0x50 + b) = false := by
          have hb : b.toNat ≤ 16 := h16
          have hs : (0x50 + b).toNat = 80 + b.toNat := by
            rw [UInt8.toNat_add]
            exact Nat.mod_eq_of_lt (by have : (0x50 : UInt8).toNat = 80 := rfl; omega)
          have h78 : (0x4E : UInt8).toNat = 78 := rfl
          simp only [carriesData, Bool.and_eq_false_iff, decide_eq_false_iff_not,
            UInt8.le_iff_toNat_le, hs, h78]
          omega
        simp only [pushForm, Piece.token, if_neg h0, if_pos h16]
        exact tokens_cons (readToken_op hop rest)
      · by_cases h81 : b = 0x81
        · subst b
          exact tokens_cons (readToken_op rfl rest)
        · simp only [pushForm, Piece.token, if_neg h0, if_neg h16, if_neg h81]
          exact tokens_cons (readToken_plain [b] rest (by simp) (by simp))
  | b :: c :: d =>
    simp only [pushForm, Piece.token]
    by_cases h75 : (b :: c :: d).length ≤ 75
    · rw [if_pos h75, if_pos h75]
      exact tokens_cons (readToken_plain _ rest (by simp) h75)
    · by_cases h255 : (b :: c :: d).length ≤ 255
      · rw [if_neg h75, if_pos h255, if_neg h75, if_pos h255]
        refine tokens_cons (readToken_counted 0x4C [UInt8.ofNat (b :: c :: d).length] _ rest
          rfl (by decide) rfl ?_ h)
        simp only [Bytes.toNatLE, toNat_ofNat_of_lt (Nat.lt_succ_of_le h255)]
        omega
      · have h65 : (b :: c :: d).length ≤ 65535 := Nat.le_trans h (by decide)
        rw [if_neg h75, if_neg h255, if_pos h65, if_neg h75, if_neg h255]
        exact tokens_cons (readToken_counted 0x4D _ _ rest rfl (by decide) rfl
          (toNatLE_littleEndian_two _ (Nat.lt_succ_of_le h65)) h)

/-- A piece is read back as its token, whatever follows. -/
theorem tokens_form_append (p : Piece) (rest : Bytes) (h : p.fits) :
    tokens (p.form ++ rest) = (p.token :: (tokens rest).1, (tokens rest).2) := by
  cases p with
  | opcode o => exact tokens_cons (readToken_op o.carriesData_code rest)
  | data d => exact tokens_pushForm d rest h

/-! ### Serializing -/

/-- The bytes of pieces one after another. -/
def forms (ps : List Piece) : Bytes := ps.flatMap Piece.form

/-- The tokens of pieces one after another are their tokens. -/
theorem tokens_forms (ps : List Piece) (h : ∀ p ∈ ps, p.fits) :
    tokens (forms ps) = (ps.map Piece.token, none) := by
  induction ps with
  | nil => rw [forms, List.flatMap_nil, tokens]; rfl
  | cons p ps ih =>
    have hps := ih fun q hq => h q (List.mem_cons_of_mem p hq)
    rw [forms, List.flatMap_cons, tokens_form_append p _ (h p List.mem_cons_self)]
    change (p.token :: (tokens (forms ps)).1, (tokens (forms ps)).2) = _
    rw [hps]
    rfl

private theorem flaw?_eq_none_iff (p : Piece) (n : Nat) :
    p.flaw? n = none ↔ n + p.form.length ≤ maxLen ∧ p.fits := by
  cases p with
  | opcode o =>
    simp only [Piece.flaw?, Piece.form, Piece.fits, List.length_singleton, and_true]
    split <;> simp <;> omega
  | data d =>
    simp only [Piece.flaw?, Piece.form, Piece.fits]
    split
    · next h => simp; omega
    · next h => split <;> simp <;> omega

private theorem foldlM_append_iff (ps : List Piece) (start script : Bytes)
    (hs : start.length ≤ maxLen) :
    ps.foldlM append start = .ok script ↔
      script = start ++ forms ps ∧ script.length ≤ maxLen ∧ ∀ p ∈ ps, p.fits := by
  induction ps generalizing start with
  | nil =>
    have hp : (List.foldlM append start [] : Except ScriptFlaw Bytes) = .ok start := rfl
    rw [hp]
    simp only [Except.ok.injEq, forms, List.flatMap_nil, List.append_nil, List.not_mem_nil,
      false_imp_iff, implies_true, and_true]
    constructor
    · rintro rfl
      exact ⟨rfl, hs⟩
    · rintro ⟨rfl, -⟩
      rfl
  | cons p ps ih =>
    have hforms : forms (p :: ps) = p.form ++ forms ps := List.flatMap_cons
    rw [List.foldlM_cons, append]
    cases hf : p.flaw? start.length with
    | some flaw =>
      have hno : ¬ (start.length + p.form.length ≤ maxLen ∧ p.fits) := by
        rw [← flaw?_eq_none_iff, hf]
        exact Option.some_ne_none flaw
      constructor
      · intro h
        cases h
      · rintro ⟨rfl, hl, hfit⟩
        refine absurd ⟨?_, hfit p List.mem_cons_self⟩ hno
        rw [hforms] at hl
        simp only [List.length_append] at hl
        omega
    | none =>
      obtain ⟨hl, hfit⟩ := (flaw?_eq_none_iff p _).mp hf
      change ps.foldlM append (start ++ p.form) = .ok script ↔ _
      rw [ih _ (by rw [List.length_append]; exact hl), hforms, List.append_assoc]
      simp only [List.mem_cons, forall_eq_or_imp, hfit, true_and]

/-- Pieces make a script exactly if no element is too big and the script is not too long. -/
theorem assemble_eq_ok_iff (ps : List Piece) (script : Bytes) :
    assemble ps = .ok script ↔
      script = forms ps ∧ script.length ≤ maxLen ∧ ∀ p ∈ ps, p.fits := by
  have h := foldlM_append_iff ps [] script (Nat.zero_le _)
  rw [List.nil_append] at h
  rw [← h, assemble, build]
  cases ps.foldlM append [] with
  | ok s => simp
  | error e => simp

/-- Whether an instruction contributes a piece. Where it stands matters for problems only. -/
def Writes (i : Instr) (p : Piece) : Prop := piece 0 i = .ok p

private theorem piece_eq_ok_iff (index : Nat) (i : Instr) (p : Piece) :
    piece index i = .ok p ↔ Writes i p := by
  unfold Writes
  cases i with
  | inner ops =>
    simp only [piece]
    cases pieces 0 ops >>= assemble with
    | ok script => rfl
    | error e => simp
  | _ => simp [piece]

/-- Instructions have pieces exactly if each of them contributes one. -/
theorem pieces_eq_ok_iff (index : Nat) (ops : List Instr) (ps : List Piece) :
    pieces index ops = .ok ps ↔ List.Forall₂ Writes ops ps := by
  induction ops generalizing index ps with
  | nil =>
    rw [pieces, List.forall₂_nil_left_iff, Except.ok.injEq, eq_comm]
  | cons i rest ih =>
    rw [pieces, List.forall₂_cons_left_iff]
    cases hi : piece index i with
    | error e =>
      refine ⟨nofun, ?_⟩
      rintro ⟨p, qs, hp, -⟩
      rw [(piece_eq_ok_iff index i p).mpr hp] at hi
      cases hi
    | ok p =>
      have hw : ∀ q, Writes i q ↔ q = p := by
        intro q
        rw [← piece_eq_ok_iff index, hi, Except.ok.injEq, eq_comm]
      cases hr : pieces (index + 1) rest with
      | error e =>
        refine ⟨nofun, ?_⟩
        rintro ⟨q, qs, -, hqs, -⟩
        rw [(ih (index + 1) qs).mpr hqs] at hr
        cases hr
      | ok others =>
        have ho : ∀ qs, List.Forall₂ Writes rest qs ↔ qs = others := by
          intro qs
          rw [← ih (index + 1), hr, Except.ok.injEq, eq_comm]
        simp only [hw, ho, Except.ok.injEq]
        constructor
        · rintro rfl
          exact ⟨p, others, rfl, rfl, rfl⟩
        · rintro ⟨q, qs, rfl, rfl, rfl⟩
          rfl

/-- A program is serialized exactly if each instruction contributes a piece, no element is too big
and the script is not too long. -/
theorem serialize_eq_ok_iff (ops : List Instr) (script : Bytes) :
    serialize ops = .ok script ↔
      ∃ ps, List.Forall₂ Writes ops ps ∧ script = forms ps ∧ script.length ≤ maxLen ∧
        ∀ p ∈ ps, p.fits := by
  rw [serialize]
  cases hp : pieces 0 ops with
  | error e =>
    refine ⟨nofun, ?_⟩
    rintro ⟨ps, hps, -⟩
    rw [(pieces_eq_ok_iff 0 ops ps).mpr hps] at hp
    cases hp
  | ok ps =>
    change assemble ps = .ok script ↔ _
    rw [assemble_eq_ok_iff]
    constructor
    · intro h
      exact ⟨ps, (pieces_eq_ok_iff 0 ops ps).mp hp, h⟩
    · rintro ⟨qs, hqs, h⟩
      rw [← pieces_eq_ok_iff 0, hp, Except.ok.injEq] at hqs
      rwa [hqs]

end Script

end NamedStack
