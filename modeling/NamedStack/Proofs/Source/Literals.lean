import NamedStack.Proofs.ScriptNum.RoundTrip
import NamedStack.Proofs.Source.Forms
import NamedStack.Proofs.Source.Scanning

/-!
# Single tokens by position

Reading a token once more, by cutting it at positions: a form at its first parenthesis, a quoted
string byte by byte, hexadecimal data after its mark, and an integer as a word of 64 bits. A
position outside of the token is a fault, and there is none: every token is read as it is without
positions. Only the least integer is a fault, which has no shortest form.
-/

namespace NamedStack

namespace Text

/-! ### Integers -/

variable {b : Bytes} {n : Int}

private theorem digit_of_readDigits {acc n : Nat} (h : readDigits acc b = .ok n) :
    ∀ c ∈ b, 48 ≤ c ∧ c ≤ 57 := by
  induction b generalizing acc with
  | nil => exact List.forall_mem_nil _
  | cons c b ih =>
    rw [readDigits] at h
    split_ifs at h with hdigit
    dsimp only at h
    split_ifs at h
    exact List.forall_mem_cons.mpr ⟨hdigit, ih h⟩

private theorem nonNegative_bounds (h : readInt.nonNegative b = .ok n) :
    0 ≤ n ∧ n < 9223372036854775808 := by
  rw [readInt.nonNegative] at h
  cases hk : readNat b with
  | error e =>
    rw [hk] at h
    cases h
  | ok k =>
    rw [hk] at h
    change (if k < 9223372036854775808 then _ else _) = _ at h
    split_ifs at h with hlt
    cases h
    omega

/-- An integer that is read is not negative, or digits after a sign that fit in a word. -/
theorem readInt_cases (h : readInt b = .ok n) :
    0 ≤ n ∧ n < 9223372036854775808 ∨
      ∃ digits k, b = 45 :: digits ∧ readNat digits = .ok k ∧ k ≤ 9223372036854775808 ∧
        n = -(k : Int) := by
  unfold readInt at h
  split at h
  · next digits =>
    cases hk : readNat digits with
    | error e =>
      rw [hk] at h
      cases h
    | ok k =>
      rw [hk] at h
      change (if k ≤ 9223372036854775808 then _ else _) = _ at h
      split_ifs at h with hle
      cases h
      exact .inr ⟨digits, k, rfl, hk, hle, rfl⟩
  · exact .inl (nonNegative_bounds h)
  · exact .inl (nonNegative_bounds h)

/-- An integer that is read fits in a word. -/
theorem readInt_bounds (h : readInt b = .ok n) :
    -9223372036854775808 ≤ n ∧ n < 9223372036854775808 := by
  rcases readInt_cases h with ⟨hlow, hhigh⟩ | ⟨digits, k, -, -, hk, rfl⟩ <;> omega

end Text

namespace Source

namespace Positional

open Sequence (get slice)

/-- Read a keyword with arguments in parentheses. -/
def form? (tok : Bytes) : Except Fault (Option Form) :=
  match tok.findIdx? (· = 40) with
  | none => .ok none
  | some i =>
    if i = 0 ∨ tok.getLast? ≠ some 41 then .ok none
    else do
      let keyword ← slice tok 0 i
      let inside := Text.trim (← slice tok (i + 1) (tok.length - 1))
      let args := if inside.isEmpty then [] else (Bytes.splitOn 44 inside).map Text.trim
      return some { keyword, args }

/-- The content of a quoted string from a position on; a backslash gives way to the byte after
it. -/
def unescapeFrom (tok : Bytes) : Nat → Nat → Except Fault Bytes
  | 0, _ => .error .endless
  | fuel + 1, i =>
    if i + 1 < tok.length then do
      let c ← get tok i
      let j := if c = 92 then i + 1 else i
      let b ← get tok j
      let rest ← unescapeFrom tok fuel (j + 1)
      return b :: rest
    else .ok []

/-- The content of a token between single quotes. -/
def quoted? (tok : Bytes) : Except Fault (Option Bytes) :=
  if 2 ≤ tok.length then do
    let first ← get tok 0
    let last ← get tok (tok.length - 1)
    if first = 39 ∧ last = 39 then
      let data ← unescapeFrom tok tok.length 1
      return some data
    else return none
  else .ok none

/-- The shortest instruction that pushes a word. -/
def number (n : Int) : Except Fault Instr :=
  match SmallInt.ofInt? n with
  | some s => .ok (.op (.small s))
  | none => (ScriptNum.ofWord (Int64.ofInt n)).map .push

/-- The instruction of a token that is no bracket, call or declaration. -/
def atom (tok : Bytes) : Except Failure Instr := do
  match ← (form? tok).mapError .fault with
  | some f =>
    if f.args.length ≠ 1 then fail (.badToken tok)
    else
      let name ← (get f.args 0).mapError .fault
      if !Name.isValid name then fail (.badToken tok)
      else if f.keyword = text "assume" then return .assume name
      else if f.keyword = text "assign" then return .assign name
      else if f.keyword = text "var" then return .var name
      else fail (.badToken tok)
  | none =>
    if (text "0x").isPrefixOf tok then
      let digits ← (slice tok 2 tok.length).mapError .fault
      match Hex.decode digits with
      | .ok data => return .push data
      | .error e => fail (.badHexToken tok e)
    else
      match ← (quoted? tok).mapError .fault with
      | some data => return .push data
      | none =>
        match Text.readInt tok with
        | .ok n => (number n).mapError .fault
        | .error _ =>
          match Opcode.ofName? tok with
          | some o => return .op o
          | none => fail (.badToken tok)

/-! ### Agreement -/

/-- The arguments inside of parentheses. -/
private def argsOf (inside : Bytes) : List Bytes :=
  if (Text.trim inside).isEmpty then [] else (Bytes.splitOn 44 (Text.trim inside)).map Text.trim

variable {i : Nat} {tok : Bytes}

private theorem takeWhile_eq_take (h : tok.findIdx? (· = 40) = some i) :
    tok.takeWhile (· ≠ 40) = tok.take i := by
  have hnot : (fun c : UInt8 => !decide (c ≠ 40)) = fun c => decide (c = 40) := by
    funext c
    simp
  rw [List.takeWhile_eq_take_findIdx_not, hnot, (List.findIdx?_eq_some_iff_findIdx_eq.mp h).2]

private theorem paren_lt (h : tok.findIdx? (· = 40) = some i) (hlast : tok.getLast? = some 41) :
    i + 1 < tok.length := by
  obtain ⟨hi, hparen, -⟩ := List.findIdx?_eq_some_iff_getElem.mp h
  by_contra hge
  have hend : tok.length - 1 = i := by omega
  rw [List.getLast?_eq_getElem?, hend, List.getElem?_eq_getElem hi, Option.some.injEq] at hlast
  rw [hlast] at hparen
  exact absurd hparen (by decide)

private theorem ofToken?_eq (h : tok.findIdx? (· = 40) = some i) :
    Form.ofToken? tok =
      if i = 0 ∨ tok.getLast? ≠ some 41 then none
      else some { keyword := tok.take i, args := argsOf (tok.drop (i + 1)).dropLast } := by
  have hi := (List.findIdx?_eq_some_iff_findIdx_eq.mp h).1
  have hlen : (tok.take i).length = i := by rw [List.length_take, Nat.min_eq_left hi.le]
  have hempty : (tok.take i).isEmpty = decide (i = 0) := by
    rw [Bool.eq_iff_iff, List.isEmpty_iff, ← List.length_eq_zero_iff, hlen, decide_eq_true_iff]
  have hwhole : i ≠ tok.length := by omega
  rw [Form.ofToken?, takeWhile_eq_take h]
  simp only [hempty, hlen, hwhole, decide_false, Bool.or_false, Bool.or_eq_true, decide_eq_true_eq,
    argsOf]

/-- Reading a form does not fail. -/
theorem form?_eq (tok : Bytes) : form? tok = .ok (Form.ofToken? tok) := by
  rw [form?]
  cases h : tok.findIdx? (· = 40) with
  | none =>
    rw [ofToken?_eq_none]
    intro hmem
    exact absurd (List.findIdx?_eq_none_iff.mp h 40 hmem) (by decide)
  | some i =>
    rw [ofToken?_eq h]
    dsimp only
    by_cases hform : i = 0 ∨ tok.getLast? ≠ some 41
    · rw [if_pos hform, if_pos hform]
    · rw [if_neg hform, if_neg hform]
      rw [not_or, not_not] at hform
      have hlt := paren_lt h hform.2
      rw [Sequence.slice_eq_ok (by decide) (by omega) (by omega),
        Sequence.slice_eq_ok (by omega) (by omega) (by omega)]
      have hinside : (tok.take (tok.length - 1)).drop (i + 1) = (tok.drop (i + 1)).dropLast := by
        rw [List.drop_take, List.dropLast_eq_take, List.length_drop, Nat.sub_right_comm]
      have hstop : ((tok.length : Int) - 1).toNat = tok.length - 1 := by omega
      change Except.ok (some (Form.mk _ (argsOf ((tok.take _).drop _)))) = _
      rw [hstop, Int.toNat_natCast_add_one, hinside]
      rfl

private theorem unescapeFrom_succ {fuel : Nat} {c : UInt8} (h : i + 1 < tok.length)
    (hget : get tok i = .ok c) :
    unescapeFrom tok (fuel + 1) i = do
      let b ← get tok (if c = 92 then i + 1 else i : Nat)
      let rest ← unescapeFrom tok fuel ((if c = 92 then i + 1 else i) + 1)
      return b :: rest := by
  rw [unescapeFrom, if_pos h, hget]
  rfl

private theorem unescape_cons {c : UInt8} (h : c ≠ 92) (rest : Bytes) :
    unescape (c :: rest) = c :: unescape rest := by
  rw [unescape]
  intro d rest' heq
  cases heq
  exact absurd rfl h

/-- From a position inside of a quoted string, the content up to the closing quote is read. -/
theorem unescapeFrom_eq {fuel : Nat} (hfuel : tok.length ≤ fuel + i)
    (h : Lexer.quotedLength false i (tok.drop i) = some tok.length) :
    unescapeFrom tok fuel i = .ok (unescape (tok.drop i).dropLast) := by
  have hlt := (Lexer.quotedLength_bounds h).1
  induction fuel generalizing i with
  | zero => omega
  | succ fuel ih =>
    obtain ⟨c, rest, hdrop, hget, hrest⟩ := Sequence.exists_get hlt
    rw [hdrop, Lexer.quotedLength, if_neg Bool.false_ne_true] at h
    rw [hdrop]
    by_cases hquote : c = 39
    · rw [if_pos hquote, Option.some.injEq] at h
      rw [unescapeFrom, if_neg (by omega), ← hrest, h, List.drop_length]
      rfl
    rw [if_neg hquote] at h
    have hnext : i + 1 < tok.length := (Lexer.quotedLength_bounds h).1
    rw [unescapeFrom_succ hnext hget]
    by_cases hescape : c = 92
    · -- The byte after the backslash is there, and the closing quote comes behind it.
      obtain ⟨d, rest', hdrop', hget', hrest'⟩ := Sequence.exists_get hnext
      obtain rfl : rest = d :: rest' := hrest.symm.trans hdrop'
      rw [decide_eq_true hescape, Lexer.quotedLength, if_pos rfl, ← hrest'] at h
      have hbehind := (Lexer.quotedLength_bounds h).1
      have hne : rest' ≠ [] := by
        rw [← hrest', ne_eq, List.drop_eq_nil_iff]
        omega
      rw [if_pos hescape, hget', ih (by omega) h hbehind, hrest', hescape,
        List.dropLast_cons_of_ne_nil (List.cons_ne_nil _ _), List.dropLast_cons_of_ne_nil hne,
        unescape]
      rfl
    · rw [decide_eq_false hescape, ← hrest] at h
      have hne : rest ≠ [] := by
        rw [← hrest, ne_eq, List.drop_eq_nil_iff]
        omega
      rw [if_neg hescape, hget, ih (by omega) h hnext, hrest, List.dropLast_cons_of_ne_nil hne,
        unescape_cons hescape]
      rfl

private theorem quoted?_of_ne {first : UInt8} (h : first ≠ 39) (rest : Bytes) :
    Source.quoted? (first :: rest) = none := by
  rw [Source.quoted?]
  intro rest' heq
  exact h (List.cons.inj heq).1

/-- A token between single quotes is read as its content. -/
theorem quoted?_eq (h : Lexer.Lexed tok) : quoted? tok = .ok (Source.quoted? tok) := by
  obtain ⟨first, rest, rfl⟩ := List.exists_cons_of_ne_nil h.ne_nil
  rw [quoted?]
  obtain rfl | ⟨l, last, rfl⟩ := List.eq_nil_or_concat' rest
  · by_cases hfirst : first = 39
    · subst hfirst
      rfl
    · rw [quoted?_of_ne hfirst]
      rfl
  · have hget : get (first :: (l ++ [last])) ((first :: (l ++ [last])).length - 1) = .ok last :=
      Sequence.get_last (first :: l) last
    rw [if_pos (by simp), hget]
    change (if first = 39 ∧ last = 39 then _ else _) = _
    by_cases hfirst : first = 39
    · subst hfirst
      rw [Source.quoted?, List.getLast?_concat]
      by_cases hlast : last = 39
      · rw [if_pos ⟨rfl, hlast⟩, if_pos (congrArg some hlast),
          unescapeFrom_eq (Nat.le_add_right _ _) (h.closed _ rfl)]
        rfl
      · rw [if_neg (fun hboth => hlast hboth.2),
          if_neg (fun hsome => hlast (Option.some.inj hsome))]
        rfl
    · rw [if_neg (fun hboth => hfirst hboth.1), quoted?_of_ne hfirst]
      rfl

private theorem number_eq {n : Int} (hlow : -9223372036854775808 ≤ n)
    (hhigh : n < 9223372036854775808) : number n = Instr.ofInt n := by
  have hword : ScriptNum.ofWord (Int64.ofInt n) = ScriptNum.encode n := by
    rw [ScriptNum.ofWord_eq, Int64.toInt_ofInt_of_le hlow hhigh]
  rw [number, Instr.ofInt]
  cases SmallInt.ofInt? n with
  | some s => rfl
  | none => exact congrArg (Except.map Instr.push) hword

/-- Every token is read by position as without. -/
theorem atom_eq (h : Lexer.Lexed tok) : atom tok = Source.atom tok := by
  rw [atom, form?_eq, Source.atom]
  cases Form.ofToken? tok with
  | some f =>
    obtain ⟨keyword, args⟩ := f
    rcases args with _ | ⟨name, _ | ⟨_, _⟩⟩ <;> rfl
  | none =>
    rw [Bytes.dropFront?, quoted?_eq h]
    change (if (text "0x").isPrefixOf tok then _ else _) = _
    by_cases hmark : (text "0x").isPrefixOf tok = true
    · have hlen : 2 ≤ tok.length := (List.isPrefixOf_iff_prefix.mp hmark).length_le
      have hdigits : slice tok 2 tok.length = .ok (tok.drop 2) := Sequence.slice_toEnd (i := 2) hlen
      rw [if_pos hmark, if_pos hmark, hdigits]
      rfl
    · rw [if_neg hmark, if_neg hmark]
      cases Source.quoted? tok with
      | some data => rfl
      | none =>
        cases hn : Text.readInt tok with
        | ok n =>
          have hbounds := Text.readInt_bounds hn
          exact congrArg (Except.mapError Failure.fault) (number_eq hbounds.1 hbounds.2)
        | error e => rfl

end Positional

/-! ### The least integer -/

/-- What is read as the least integer starts with a sign and is no form. -/
theorem exists_sign_of_least {tok : Bytes} (h : Text.readInt tok = .ok (-9223372036854775808)) :
    (∃ digits, tok = 45 :: digits) ∧ Form.ofToken? tok = none := by
  rcases Text.readInt_cases h with ⟨hlow, -⟩ | ⟨digits, k, rfl, hk, -, -⟩
  · omega
  rw [Text.readNat] at hk
  split_ifs at hk
  refine ⟨⟨digits, rfl⟩, ofToken?_eq_none fun hmem => ?_⟩
  rcases List.mem_cons.mp hmem with hsign | hdigit
  · exact absurd hsign (by decide)
  · exact absurd (Text.digit_of_readDigits hk 40 hdigit).1 (by decide)

private theorem ofInt_eq_error_iff {n : Int} {f : Fault} :
    Instr.ofInt n = .error f ↔ f = .outOfRange ∧ n = -9223372036854775808 := by
  rw [Instr.ofInt, SmallInt.ofInt?, ScriptNum.encode]
  split_ifs with hsmall hleast
  · constructor
    · intro h
      cases h
    · rintro ⟨-, rfl⟩
      exact absurd hsmall (by decide)
  · constructor
    · intro h
      cases h
      exact ⟨rfl, hleast⟩
    · rintro ⟨rfl, -⟩
      rfl
  · constructor
    · intro h
      cases h
    · rintro ⟨-, hn⟩
      exact absurd hn hleast

/-- Only the least integer is a fault. -/
theorem atom_eq_fault_iff {tok : Bytes} {f : Fault} :
    atom tok = .error (.fault f) ↔
      f = .outOfRange ∧ Text.readInt tok = .ok (-9223372036854775808) := by
  constructor
  · intro h
    unfold atom at h
    split at h
    · split_ifs at h <;> cases h
    · cases h
    · split at h
      · split at h <;> cases h
      · split at h
        · cases h
        · split at h
          · next n hn =>
            cases hint : Instr.ofInt n with
            | ok i =>
              rw [hint] at h
              cases h
            | error e =>
              rw [hint] at h
              cases h
              obtain ⟨rfl, rfl⟩ := ofInt_eq_error_iff.mp hint
              exact ⟨rfl, hn⟩
          · split at h <;> cases h
  · rintro ⟨rfl, h⟩
    obtain ⟨⟨digits, rfl⟩, hform⟩ := exists_sign_of_least h
    have hmark : Bytes.dropFront? (text "0x") (45 :: digits) = none := rfl
    have hquoted : quoted? (45 :: digits) = none := rfl
    rw [atom, hform, hmark, hquoted, h]
    rfl

end Source

end NamedStack
