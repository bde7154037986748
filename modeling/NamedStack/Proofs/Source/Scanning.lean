import NamedStack.Proofs.Source.Fronts

/-!
# Tokens by position

The first token of a window once more, found by walking through the window by position. A position
outside of the window is a fault, and so is a walk that does not come to an end in as many steps as
the window has bytes. There is none: the walk finds what stands at the front of the window, token
by token, and never stays where it is.
-/

namespace NamedStack.Lexer

namespace Positional

open Sequence (get slice)

/-- The position after the closing quote, from a position inside of a quoted string. -/
def quotedEnd (inp : Bytes) : Nat → Bool → Nat → Except Fault (Option Nat)
  | 0, _, _ => .error .endless
  | fuel + 1, escaped, i =>
    if i < inp.length then
      if escaped then quotedEnd inp fuel false (i + 1)
      else do
        let c ← get inp i
        if c = 39 then return some (i + 1) else quotedEnd inp fuel (c = 92) (i + 1)
    else .ok none

/-- The position after a word, the parentheses left open in it and whether something follows it,
from a position inside of the word. -/
def wordEnd (inp : Bytes) : Nat → Int → Nat → Except Fault (Nat × Int × Bool)
  | 0, _, _ => .error .endless
  | fuel + 1, depth, i =>
    if i < inp.length then do
      let c ← get inp i
      if c = 40 then wordEnd inp fuel (depth + 1) (i + 1)
      else if c = 41 then wordEnd inp fuel (depth - 1) (i + 1)
      else if depth = 0 && (isBlank c || isBracket c) then return (i, depth, true)
      else wordEnd inp fuel depth (i + 1)
    else .ok (i, depth, false)

/-- What stands at a position of a window. -/
def front (inp : Bytes) (atEnd : Bool) (start : Nat) : Except Fault Front := do
  let c ← get inp start
  if isBlank c then return .skip 1 1
  else if c = 35 then
    let line ← slice inp start inp.length
    return .ofLine atEnd (lineEnd line)
  else if isBracket c then return .token 1 1
  else if c = 39 then
    let stop ← quotedEnd inp (inp.length + 1) false (start + 1)
    return .ofQuoted atEnd (inp.length - start) (stop.map (· - start))
  else
    let (stop, depth, more) ← wordEnd inp (inp.length + 1) 0 start
    return .ofWord atEnd (stop - start, depth, more)

/-- The first token of a window, from a position on. -/
def splitFrom (inp : Bytes) (atEnd : Bool) : Nat → Nat → Except Fault Split
  | 0, _ => .error .endless
  | fuel + 1, start =>
    if start < inp.length then do
      match ← front inp atEnd start with
      | .skip n _ => splitFrom inp atEnd fuel (start + n)
      | .token n _ => return .token (start + n) (← slice inp start (start + n))
      | .open => return .more start
      | .broken why _ => return .broken why
    else .ok (.more start)

/-- The first token of a window. -/
def split (window : Bytes) (atEnd : Bool) : Except Fault Split :=
  splitFrom window atEnd (window.length + 1) 0

/-- The tokens of a text from a position on, behind the tokens read so far. -/
def tokensFrom (src : Bytes) : Nat → List Bytes → Nat → Except Failure (List Bytes)
  | 0, _, _ => .error (.fault .endless)
  | fuel + 1, toks, start =>
    if start < src.length then do
      match ← (front src true start).mapError .fault with
      | .skip n seen =>
        if windowSize < seen then fail .tokenTooLong else tokensFrom src fuel toks (start + n)
      | .token n seen =>
        if windowSize < seen then fail .tokenTooLong
        else
          let tok ← (slice src start (start + n)).mapError .fault
          tokensFrom src fuel (toks ++ [tok]) (start + n)
      | .open => fail .tokenTooLong
      | .broken why seen =>
        if windowSize < seen then fail .tokenTooLong else fail (.badToken (text why))
    else .ok toks

/-- The tokens of a text. -/
def tokens (src : Bytes) : Except Failure (List Bytes) := tokensFrom src (src.length + 1) [] 0

variable {fuel start : Nat} {inp : Bytes}

private theorem quotedEnd_eq {i : Nat} (escaped : Bool) (hfuel : inp.length < fuel + i)
    (hi : i ≤ inp.length) :
    quotedEnd inp fuel escaped i = .ok (quotedLength escaped i (inp.drop i)) := by
  induction fuel generalizing escaped i with
  | zero => omega
  | succ fuel ih =>
    rw [quotedEnd]
    by_cases hlt : i < inp.length
    · obtain ⟨c, rest, hdrop, hget, rfl⟩ := Sequence.exists_get hlt
      have hnext (e : Bool) := ih e (i := i + 1) (by omega) hlt
      rw [if_pos hlt, hdrop, quotedLength, hget]
      change (if escaped then _ else if c = 39 then _ else _) = _
      split_ifs <;> first | exact hnext _ | rfl
    · rw [if_neg hlt, List.drop_eq_nil_of_le (by omega)]
      rfl

private theorem wordEnd_eq {i : Nat} (depth : Int) (hfuel : inp.length < fuel + i)
    (hi : i ≤ inp.length) : wordEnd inp fuel depth i = .ok (wordLength depth i (inp.drop i)) := by
  induction fuel generalizing depth i with
  | zero => omega
  | succ fuel ih =>
    rw [wordEnd]
    by_cases hlt : i < inp.length
    · obtain ⟨c, rest, hdrop, hget, rfl⟩ := Sequence.exists_get hlt
      have hnext (d : Int) := ih d (i := i + 1) (by omega) hlt
      rw [if_pos hlt, hdrop, wordLength, hget]
      change (if c = 40 then _ else _) = _
      split_ifs <;> first | exact hnext _ | rfl
    · rw [if_neg hlt, List.drop_eq_nil_of_le (by omega)]
      rfl

/-- What stands at a position is what stands at the front of the rest. -/
theorem front_eq (h : start < inp.length) (atEnd : Bool) :
    ∃ c rest, inp.drop start = c :: rest ∧ inp.length = start + (rest.length + 1) ∧
      front inp atEnd start = .ok (Lexer.front atEnd c rest) := by
  obtain ⟨c, rest, hdrop, hget, hrest⟩ := Sequence.exists_get h
  have hlen : inp.length = start + (rest.length + 1) := by
    rw [← List.length_cons, ← hdrop, List.length_drop]
    omega
  refine ⟨c, rest, hdrop, hlen, ?_⟩
  have hline : slice inp start inp.length = .ok (c :: rest) := by
    rw [Sequence.slice_toEnd h.le, hdrop]
  have hquoted : quotedEnd inp (inp.length + 1) false (start + 1) =
      .ok ((quotedLength false 1 rest).map (· + start)) := by
    rw [quotedEnd_eq false (by omega) (by omega), hrest, Nat.add_comm, quotedLength_add]
  have hword : wordEnd inp (inp.length + 1) 0 start =
      .ok ((wordLength 0 0 (c :: rest)).1 + start, (wordLength 0 0 (c :: rest)).2) := by
    rw [wordEnd_eq 0 (by omega) (by omega), hdrop, ← wordLength_add, Nat.zero_add]
  rw [front, hget, Lexer.front_eq]
  change (if isBlank c then _ else if c = 35 then _ else if isBracket c then _ else if c = 39 then _
    else _) = _
  split_ifs with hblank hcomment hbracket hquote
  · rfl
  · have hfirst : lineEnd (c :: rest) = lineLength 1 rest := by
      rw [lineLength_eq, lineEnd, lineEnd, List.findIdx?_cons, hcomment]
      cases rest.findIdx? (· = 10) <;> rfl
    rw [hline, ← hfirst]
    rfl
  · rfl
  · have hback (k : Option Nat) : (k.map (· + start)).map (· - start) = k := by
      cases k with
      | none => rfl
      | some n => exact congrArg some (Nat.add_sub_cancel n start)
    rw [hquoted]
    change Except.ok (Front.ofQuoted atEnd (inp.length - start) _) = _
    rw [hback, hlen, Nat.add_sub_cancel_left]
  · rw [hword]
    change Except.ok (Front.ofWord atEnd (_ + start - start, _, _)) = _
    rw [Nat.add_sub_cancel]

/-- From a position on, the walk finds the first token of the rest. -/
theorem splitFrom_eq (atEnd : Bool) {k : Nat} (hstart : start ≤ inp.length)
    (hfuel : inp.length < fuel + start) (hk : inp.length ≤ k + start) :
    splitFrom inp atEnd fuel start =
      .ok ((Lexer.splitFrom atEnd k (inp.drop start)).after start) := by
  -- Every item that is passed over takes at least one byte, so the steps left cover the bytes left.
  induction fuel generalizing start k with
  | zero => omega
  | succ fuel ih =>
    rw [splitFrom]
    by_cases hlt : start < inp.length
    · obtain ⟨c, rest, hdrop, hlen, hfront⟩ := front_eq hlt atEnd
      obtain ⟨k, rfl⟩ : ∃ j, k = j + 1 := ⟨k - 1, by omega⟩
      rw [if_pos hlt, hfront, hdrop, Lexer.splitFrom, ← hdrop]
      cases hf : Lexer.front atEnd c rest with
      | skip n seen =>
        have hn : 0 < n ∧ n ≤ rest.length + 1 := front_length (by rw [hf]; rfl)
        change splitFrom inp atEnd fuel (start + n) = .ok ((Split.after n _).after start)
        rw [ih (k := k) (by omega) (by omega) (by omega), List.drop_drop, Split.after_after]
      | token n seen =>
        have hn : 0 < n ∧ n ≤ rest.length + 1 := front_length (by rw [hf]; rfl)
        change (slice inp start (start + n) >>= fun tok => .ok (Split.token (start + n) tok)) = _
        rw [Sequence.slice_drop (by omega)]
        rfl
      | «open» => rfl
      | broken why seen => rfl
    · rw [if_neg hlt, List.drop_eq_nil_of_le (by omega)]
      cases k <;> rfl

/-- The walk finds the first token of every window. -/
theorem split_eq (window : Bytes) (atEnd : Bool) :
    split window atEnd = .ok (Lexer.split window atEnd) := by
  rw [split, splitFrom_eq atEnd (Nat.zero_le _) (Nat.lt_succ_self _) (Nat.le_refl _),
    Split.after_zero]
  rfl

private theorem tokensFrom_eq {src : Bytes} {k : Nat} (toks : List Bytes)
    (hstart : start ≤ src.length) (hfuel : src.length < fuel + start)
    (hk : src.length ≤ k + start) :
    tokensFrom src fuel toks start =
      (Lexer.tokensFrom k toks.reverse (src.drop start)).mapError .of := by
  induction fuel generalizing toks start k with
  | zero => omega
  | succ fuel ih =>
    rw [tokensFrom]
    by_cases hlt : start < src.length
    · obtain ⟨c, rest, hdrop, hlen, hfront⟩ := front_eq hlt true
      obtain ⟨k, rfl⟩ : ∃ j, k = j + 1 := ⟨k - 1, by omega⟩
      rw [if_pos hlt, hfront, hdrop, Lexer.tokensFrom, ← hdrop]
      cases hf : Lexer.front true c rest with
      | skip n seen =>
        have hn : 0 < n ∧ n ≤ rest.length + 1 := front_length (by rw [hf]; rfl)
        change (if _ then _ else _) = Except.mapError _ (if windowSize < seen then _ else _)
        split_ifs
        · rfl
        · rw [ih toks (k := k) (by omega) (by omega) (by omega), List.drop_drop]
      | token n seen =>
        have hn : 0 < n ∧ n ≤ rest.length + 1 := front_length (by rw [hf]; rfl)
        change (if _ then _ else _) = Except.mapError _ (if windowSize < seen then _ else _)
        split_ifs
        · rfl
        · rw [Sequence.slice_drop (by omega)]
          change tokensFrom src fuel (toks ++ [(src.drop start).take n]) (start + n) = _
          rw [ih (toks ++ [_]) (k := k) (by omega) (by omega) (by omega), List.drop_drop,
            List.reverse_append]
          rfl
      | «open» => rfl
      | broken why seen =>
        change (if _ then _ else _) = Except.mapError _ (if windowSize < seen then _ else _)
        split_ifs <;> rfl
    · rw [if_neg hlt, List.drop_eq_nil_of_le (by omega), Lexer.tokensFrom, List.reverse_reverse]
      rfl

/-- The walk through a text finds its tokens. -/
theorem tokens_eq (src : Bytes) : tokens src = (Lexer.tokens src).mapError .of :=
  tokensFrom_eq [] (Nat.zero_le _) (Nat.lt_succ_self _) (Nat.le_refl _)

end Positional

end NamedStack.Lexer
