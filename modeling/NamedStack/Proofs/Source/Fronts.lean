import NamedStack.Proofs.Sequence
import NamedStack.Source.Lexer

/-!
# What stands at the front of a window

How long the token at the front of a window is, and that looking for it makes progress: what is
found or skipped is not empty and lies in the window. A token that starts with a quote is closed by
one.
-/

namespace NamedStack.Lexer

/-! ### Lengths -/

/-- The count at the start adds to the length. -/
theorem quotedLength_add (escaped : Bool) (n k : Nat) (b : Bytes) :
    quotedLength escaped (n + k) b = (quotedLength escaped n b).map (· + k) := by
  induction b generalizing escaped n with
  | nil => rfl
  | cons c b ih =>
    simp only [quotedLength, Nat.add_right_comm n k 1, ih]
    split_ifs <;> rfl

/-- The count at the start adds to the length. -/
theorem wordLength_add (depth : Int) (n k : Nat) (b : Bytes) :
    wordLength depth (n + k) b =
      ((wordLength depth n b).1 + k, (wordLength depth n b).2) := by
  induction b generalizing depth n with
  | nil => rfl
  | cons c b ih =>
    simp only [wordLength, Nat.add_right_comm n k 1, ih]
    split_ifs <;> rfl

/-- The number of bytes before the end of the line, and whether the line ends, by looking for the
end of the line. -/
def lineEnd (b : Bytes) : Nat × Bool :=
  match b.findIdx? (· = 10) with
  | some i => (i, true)
  | none => (b.length, false)

/-- The count at the start adds to the length. -/
theorem lineLength_eq (n : Nat) (b : Bytes) :
    lineLength n b = ((lineEnd b).1 + n, (lineEnd b).2) := by
  induction b generalizing n with
  | nil => simp [lineLength, lineEnd]
  | cons c b ih =>
    rw [lineLength, lineEnd, List.findIdx?_cons]
    by_cases hc : c = 10
    · simp [hc]
    · rw [if_neg hc, ih, lineEnd]
      cases b.findIdx? (· = 10) <;> simp [hc] <;> omega

private theorem lineEnd_bounds (b : Bytes) :
    (lineEnd b).1 ≤ b.length ∧ ((lineEnd b).2 = true → (lineEnd b).1 < b.length) := by
  rw [lineEnd]
  cases h : b.findIdx? (· = 10) with
  | some i =>
    have hi : i < b.length := (List.findIdx?_eq_some_iff_findIdx_eq.mp h).1
    exact ⟨hi.le, fun _ => hi⟩
  | none => exact ⟨Nat.le_refl _, fun hend => absurd hend Bool.false_ne_true⟩

variable {b rest : Bytes} {n : Nat} {atEnd : Bool} {c : UInt8}

variable {escaped : Bool} {k fuel : Nat} {src : Bytes} {toks : List Bytes}

/-- A quoted string ends inside of the bytes. -/
theorem quotedLength_bounds (h : quotedLength escaped n b = some k) : n < k ∧ k ≤ n + b.length := by
  induction b generalizing escaped n with
  | nil => cases h
  | cons c b ih =>
    rw [quotedLength] at h
    rw [List.length_cons]
    split_ifs at h with hescaped hquote
    · have := ih h
      omega
    · cases h
      omega
    · have := ih h
      omega

/-- A word ends inside of the bytes. -/
theorem wordLength_bounds (depth : Int) (n : Nat) (b : Bytes) :
    n ≤ (wordLength depth n b).1 ∧ (wordLength depth n b).1 ≤ n + b.length := by
  induction b generalizing depth n with
  | nil => exact ⟨Nat.le_refl n, Nat.le_refl n⟩
  | cons c b ih =>
    rw [wordLength, List.length_cons]
    split_ifs
    · have := ih (depth + 1) (n + 1)
      omega
    · have := ih (depth - 1) (n + 1)
      omega
    · omega
    · have := ih depth (n + 1)
      omega

/-- A quoted string ends with its closing quote, whatever follows. -/
theorem quotedLength_take (h : quotedLength escaped n b = some k) :
    quotedLength escaped n (b.take (k - n)) = some k := by
  induction b generalizing escaped n with
  | nil => cases h
  | cons c b ih =>
    have hlt := (quotedLength_bounds h).1
    obtain ⟨j, hj⟩ : ∃ j, k - n = j + 1 := ⟨k - n - 1, by omega⟩
    have hj' : k - (n + 1) = j := by omega
    rw [hj, List.take_succ_cons, quotedLength]
    rw [quotedLength] at h
    split_ifs at h ⊢
    · rw [← hj']
      exact ih h
    · exact h
    · rw [← hj']
      exact ih h

/-! ### What stands at the front -/

namespace Front

/-- A comment, from its length and whether its line ends. -/
def ofLine (atEnd : Bool) : Nat × Bool → Front
  | (n, true) => .skip (n + 1) (n + 1)
  | (n, false) => if atEnd then .skip n (n + 1) else .open

/-- A quoted string in a window of a given length, from its length if it ends. -/
def ofQuoted (atEnd : Bool) (window : Nat) : Option Nat → Front
  | some n => .token n n
  | none => if atEnd then .broken "unterminated string" (window + 1) else .open

/-- A word, from its length, the parentheses left open in it and whether something follows it. -/
def ofWord (atEnd : Bool) : Nat × Int × Bool → Front
  | (n, _, true) => .token n (n + 1)
  | (n, depth, false) =>
    if !atEnd then .open
    else if depth = 0 then .token n (n + 1)
    else .broken "unterminated parenthesis" (n + 1)

/-- The length of what is complete. -/
def length? : Front → Option Nat
  | .skip n _ | .token n _ => some n
  | .open | .broken _ _ => none

end Front

/-- What stands at the front, by its first byte. -/
theorem front_eq (atEnd : Bool) (c : UInt8) (rest : Bytes) :
    front atEnd c rest =
      if isBlank c then .skip 1 1
      else if c = 35 then .ofLine atEnd (lineLength 1 rest)
      else if isBracket c then .token 1 1
      else if c = 39 then .ofQuoted atEnd (rest.length + 1) (quotedLength false 1 rest)
      else .ofWord atEnd (wordLength 0 0 (c :: rest)) := rfl

private theorem ofLine_length (h : (Front.ofLine atEnd (lineLength 1 rest)).length? = some n) :
    0 < n ∧ n ≤ rest.length + 1 := by
  have hbounds := lineEnd_bounds rest
  rw [lineLength_eq] at h
  generalize lineEnd rest = line at h hbounds
  obtain ⟨k, ends⟩ := line
  cases ends with
  | true =>
    cases h
    have := hbounds.2 rfl
    omega
  | false =>
    cases atEnd <;> cases h
    have := hbounds.1
    omega

private theorem ofQuoted_length
    (h : (Front.ofQuoted atEnd (rest.length + 1) (quotedLength false 1 rest)).length? = some n) :
    0 < n ∧ n ≤ rest.length + 1 := by
  cases hq : quotedLength false 1 rest with
  | some k =>
    have := quotedLength_bounds hq
    rw [hq] at h
    cases h
    omega
  | none =>
    rw [hq] at h
    cases atEnd <;> cases h

private theorem wordLength_cons (hblank : isBlank c = false) (hbracket : isBracket c = false)
    (rest : Bytes) : ∃ depth, wordLength 0 0 (c :: rest) = wordLength depth 1 rest := by
  rw [wordLength]
  split_ifs with hopen hclose hend
  · exact ⟨_, rfl⟩
  · exact ⟨_, rfl⟩
  · simp [hblank, hbracket] at hend
  · exact ⟨_, rfl⟩

private theorem ofWord_length (hblank : isBlank c = false) (hbracket : isBracket c = false)
    (h : (Front.ofWord atEnd (wordLength 0 0 (c :: rest))).length? = some n) :
    0 < n ∧ n ≤ rest.length + 1 := by
  obtain ⟨d, hword⟩ := wordLength_cons hblank hbracket rest
  have hbounds := wordLength_bounds d 1 rest
  rw [hword] at h
  generalize wordLength d 1 rest = w at h hbounds
  obtain ⟨k, depth, more⟩ := w
  have hn : n = k := by
    cases more with
    | true =>
      cases h
      rfl
    | false =>
      rw [Front.ofWord] at h
      split_ifs at h <;> cases h
      rfl
  rw [hn]
  exact ⟨hbounds.1, by omega⟩

/-- What is complete takes at least the first byte and at most the window. -/
theorem front_length (h : (front atEnd c rest).length? = some n) : 0 < n ∧ n ≤ rest.length + 1 := by
  rw [front_eq] at h
  split_ifs at h with hblank hcomment hbracket hquote
  · cases h
    omega
  · exact ofLine_length h
  · cases h
    omega
  · exact ofQuoted_length h
  · exact ofWord_length (Bool.not_eq_true _ ▸ hblank) (Bool.not_eq_true _ ▸ hbracket) h

/-- Only before the end of the text may something be open, and only at its end broken. -/
def Front.Fits (atEnd : Bool) : Front → Prop
  | .open => atEnd = false
  | .broken _ _ => atEnd = true
  | .skip _ _ | .token _ _ => True

/-- What stands at the front fits. -/
theorem front_fits (atEnd : Bool) (c : UInt8) (rest : Bytes) : (front atEnd c rest).Fits atEnd := by
  rw [front_eq]
  split_ifs
  · trivial
  · obtain ⟨n, _ | _⟩ := lineLength 1 rest <;> cases atEnd <;> trivial
  · trivial
  · cases quotedLength false 1 rest <;> cases atEnd <;> trivial
  · obtain ⟨n, depth, _ | _⟩ := wordLength 0 0 (c :: rest)
    · rw [Front.ofWord]
      split_ifs <;> cases atEnd <;> trivial
    · trivial

/-- What tokens are like: not empty, and closed by a quote if they start with one. -/
structure Lexed (tok : Bytes) : Prop where
  ne_nil : tok ≠ []
  closed : ∀ rest, tok = 39 :: rest → quotedLength false 1 rest = some tok.length

private theorem lexed_of_front {seen : Nat} (h : front atEnd c rest = .token n seen) :
    Lexed ((c :: rest).take n) := by
  have hlen : 0 < n ∧ n ≤ rest.length + 1 := front_length (by rw [h]; rfl)
  obtain ⟨n, rfl⟩ : ∃ k, n = k + 1 := ⟨n - 1, by omega⟩
  rw [List.take_succ_cons]
  refine ⟨List.cons_ne_nil _ _, fun rest' heq => ?_⟩
  obtain ⟨rfl, rfl⟩ := List.cons.inj heq
  have hquoted : front atEnd 39 rest =
      .ofQuoted atEnd (rest.length + 1) (quotedLength false 1 rest) := rfl
  rw [hquoted] at h
  cases hq : quotedLength false 1 rest with
  | none =>
    rw [hq] at h
    cases atEnd <;> cases h
  | some k =>
    rw [hq] at h
    cases h
    rw [List.length_cons, List.length_take, Nat.min_eq_left (by omega)]
    exact quotedLength_take hq

private theorem lexed_of_mem_tokensFrom {acc : List Bytes} (h : tokensFrom fuel acc src = .ok toks)
    (hacc : ∀ tok ∈ acc, Lexed tok) : ∀ tok ∈ toks, Lexed tok := by
  fun_induction tokensFrom fuel acc src with
  | case1 | case2 =>
    cases h
    exact fun tok htok => hacc tok (List.mem_reverse.mp htok)
  | case4 _ _ _ _ _ _ _ _ ih => exact ih h hacc
  | case6 _ _ _ _ _ _ hfront _ ih =>
    exact ih h (List.forall_mem_cons.mpr ⟨lexed_of_front hfront, hacc⟩)
  | _ => cases h

/-- The tokens of a text are lexed. -/
theorem lexed_of_mem_tokens (h : tokens src = .ok toks) : ∀ tok ∈ toks, Lexed tok :=
  lexed_of_mem_tokensFrom h (List.forall_mem_nil _)

/-! ### Progress -/

/-- Skipping bytes twice. -/
theorem Split.after_after (s : Split) (n k : Nat) : (s.after n).after k = s.after (k + n) := by
  cases s <;> simp [Split.after, Nat.add_assoc]

/-- Skipping no bytes. -/
theorem Split.after_zero (s : Split) : s.after 0 = s := by
  cases s <;> simp [Split.after]

/-- What a split may be so that reading can go on: it stays inside of the window, a token is not
empty and ends where reading goes on, and at the end of the text nothing is left to be seen. -/
def Split.Advances (window : Bytes) (atEnd : Bool) : Split → Prop
  | .more a => a ≤ window.length ∧ (atEnd = true → a = window.length)
  | .token a tok =>
    tok ≠ [] ∧ ∃ skipped rest, window = skipped ++ tok ++ rest ∧ a = (skipped ++ tok).length
  | .broken _ => atEnd = true

private theorem Split.Advances.after {window : Bytes} {s : Split}
    (h : s.Advances (window.drop n) atEnd) (hn : n ≤ window.length) :
    (s.after n).Advances window atEnd := by
  cases s with
  | more a =>
    obtain ⟨hle, hend⟩ := h
    rw [List.length_drop] at hle hend
    exact ⟨by omega, fun he => by have := hend he; omega⟩
  | token a tok =>
    obtain ⟨hne, skipped, rest, hwindow, ha⟩ := h
    refine ⟨hne, window.take n ++ skipped, rest, ?_, ?_⟩
    · rw [List.append_assoc, List.append_assoc, ← List.append_assoc skipped, ← hwindow,
        List.take_append_drop]
    · rw [List.append_assoc, List.length_append, List.length_take, Nat.min_eq_left hn, ha]
  | broken why => exact h

private theorem splitFrom_advances (atEnd : Bool) (h : b.length ≤ fuel) :
    (splitFrom atEnd fuel b).Advances b atEnd := by
  induction fuel generalizing b with
  | zero =>
    obtain rfl := List.eq_nil_of_length_eq_zero (Nat.le_zero.mp h)
    exact ⟨Nat.le_refl _, fun _ => rfl⟩
  | succ fuel ih =>
    cases b with
    | nil => exact ⟨Nat.le_refl _, fun _ => rfl⟩
    | cons c rest =>
      have hfits := front_fits atEnd c rest
      rw [List.length_cons] at h
      rw [splitFrom]
      cases hf : front atEnd c rest with
      | skip n seen =>
        have hn : 0 < n ∧ n ≤ rest.length + 1 := front_length (by rw [hf]; rfl)
        exact (ih (by rw [List.length_drop, List.length_cons]; omega)).after hn.2
      | token n seen =>
        have hn : 0 < n ∧ n ≤ rest.length + 1 := front_length (by rw [hf]; rfl)
        refine ⟨(lexed_of_front hf).ne_nil, [], (c :: rest).drop n, ?_, ?_⟩
        · rw [List.nil_append, List.take_append_drop]
        · rw [List.nil_append, List.length_take, List.length_cons, Nat.min_eq_left hn.2]
      | «open» =>
        rw [hf] at hfits
        exact ⟨Nat.zero_le _, fun hend => absurd (hend.symm.trans hfits) Bool.noConfusion⟩
      | broken why seen =>
        rw [hf] at hfits
        exact hfits

/-- Every split advances. -/
theorem split_advances (window : Bytes) (atEnd : Bool) :
    (split window atEnd).Advances window atEnd :=
  splitFrom_advances atEnd (Nat.le_refl _)

end NamedStack.Lexer
