import NamedStack.Proofs.Source.Scanning
import NamedStack.Proofs.Source.Tokens

/-!
# Windows that end before the text

What is found in a window does not change when more of the text is seen. A token or a comment that
ends within a window ends there in every longer window, and what is still open starts the rest that
is looked at again. So a text can be read window by window: every window takes the reading of the
text one step further, and a window of the largest size in which nothing ends shows that something
is too long.
-/

namespace NamedStack.Lexer

/-! ### Lengths in a longer window -/

private theorem lineLength_append (n : Nat) (p q : Bytes) :
    lineLength n (p ++ q) =
      if (lineLength n p).2 then lineLength n p else lineLength (lineLength n p).1 q := by
  induction p generalizing n with
  | nil => rfl
  | cons c p ih =>
    rw [List.cons_append, lineLength, lineLength]
    by_cases hc : c = 10
    · rw [if_pos hc, if_pos hc]
      rfl
    · rw [if_neg hc, if_neg hc]
      exact ih (n + 1)

private theorem lineLength_end (n : Nat) (p : Bytes) :
    (lineLength n p).1 + (lineLength n p).2.toNat ≤ n + p.length ∧
      ((lineLength n p).2 = false → (lineLength n p).1 = n + p.length) := by
  induction p generalizing n with
  | nil => exact ⟨Nat.le_refl _, fun _ => rfl⟩
  | cons c p ih =>
    rw [lineLength, List.length_cons]
    split_ifs with hc
    · exact ⟨by simp only [Bool.toNat_true]; omega, False.elim⟩
    · rw [← Nat.add_assoc, Nat.add_right_comm]
      exact ih (n + 1)

private theorem le_lineLength (n : Nat) (p : Bytes) : n ≤ (lineLength n p).1 := by
  rw [lineLength_eq]
  exact Nat.le_add_left n _

variable {k a : Nat} {p : Bytes}

variable {escaped : Bool} {q window : Bytes} {fuel : Nat}

private theorem quotedLength_append {n : Nat} (h : quotedLength escaped n p = some k) (q : Bytes) :
    quotedLength escaped n (p ++ q) = some k := by
  induction p generalizing escaped n with
  | nil => cases h
  | cons c p ih =>
    rw [List.cons_append, quotedLength]
    rw [quotedLength] at h
    split_ifs at h ⊢
    · exact ih h
    · exact h
    · exact ih h

/-- A quoted string that is open at the end of a window ends behind it. -/
theorem lt_of_quotedLength_append {n : Nat} (hopen : quotedLength escaped n p = none)
    (h : quotedLength escaped n (p ++ q) = some k) : n + p.length < k := by
  induction p generalizing escaped n with
  | nil => exact (quotedLength_bounds h).1
  | cons c p ih =>
    rw [List.cons_append, quotedLength] at h
    rw [quotedLength] at hopen
    rw [List.length_cons]
    split_ifs at h hopen
    · have := ih hopen h
      omega
    · have := ih hopen h
      omega

private theorem wordLength_append_of_ends {depth d : Int} {n : Nat}
    (h : wordLength depth n p = (k, d, true)) (q : Bytes) :
    wordLength depth n (p ++ q) = (k, d, true) := by
  induction p generalizing depth n with
  | nil => cases h
  | cons c p ih =>
    rw [List.cons_append, wordLength]
    rw [wordLength] at h
    split_ifs at h ⊢
    · exact ih h
    · exact ih h
    · exact h
    · exact ih h

private theorem wordLength_end (depth : Int) (n : Nat) (p : Bytes) :
    (wordLength depth n p).1 + (wordLength depth n p).2.2.toNat ≤ n + p.length ∧
      ((wordLength depth n p).2.2 = false → (wordLength depth n p).1 = n + p.length) := by
  induction p generalizing depth n with
  | nil => exact ⟨Nat.le_refl _, fun _ => rfl⟩
  | cons c p ih =>
    rw [wordLength, List.length_cons]
    split_ifs
    · rw [← Nat.add_assoc, Nat.add_right_comm]
      exact ih (depth + 1) (n + 1)
    · rw [← Nat.add_assoc, Nat.add_right_comm]
      exact ih (depth - 1) (n + 1)
    · exact ⟨by simp only [Bool.toNat_true]; omega, False.elim⟩
    · rw [← Nat.add_assoc, Nat.add_right_comm]
      exact ih depth (n + 1)

/-! ### Fronts in a longer window -/

/-- How many bytes had to be seen to know what stands at the front. -/
def Front.seen : Front → Nat
  | .skip _ seen | .token _ seen | .broken _ seen => seen
  | .open => 0

private theorem Front.seen_ofLine (line : Nat × Bool) :
    (Front.ofLine true line).seen = line.1 + 1 := by
  obtain ⟨n, _ | _⟩ := line <;> rfl

private theorem Front.seen_ofWord (word : Nat × Int × Bool) :
    (Front.ofWord true word).seen = word.1 + 1 := by
  obtain ⟨n, depth, _ | _⟩ := word
  · rw [Front.ofWord]
    split_ifs <;> first | rfl | contradiction
  · rfl

/-- What is known from a window stays so when more of the text is seen. -/
theorem front_append {c : UInt8} {rest : Bytes} (h : front false c rest ≠ .open) (atEnd : Bool)
    (q : Bytes) : front atEnd c (rest ++ q) = front false c rest := by
  rw [front_eq] at h
  rw [front_eq, front_eq]
  split_ifs at h ⊢ with hblank hcomment hbracket hquote
  · rfl
  · rw [lineLength_append]
    generalize lineLength 1 rest = line at h
    obtain ⟨n, _ | _⟩ := line
    · exact absurd rfl h
    · rfl
  · rfl
  · cases hq : quotedLength false 1 rest with
    | none =>
      rw [hq] at h
      exact absurd rfl h
    | some k =>
      rw [quotedLength_append hq]
      rfl
  · rw [← List.cons_append]
    rcases hword : wordLength 0 0 (c :: rest) with ⟨n, depth, _ | _⟩
    · rw [hword] at h
      exact absurd rfl h
    · rw [wordLength_append_of_ends hword]
      rfl

/-- To see the end of something that is open, more has to be seen than the window. -/
theorem lt_seen_of_open {c : UInt8} {rest : Bytes} (h : front false c rest = .open) (q : Bytes) :
    rest.length + 1 < (front true c (rest ++ q)).seen := by
  rw [front_eq] at h
  rw [front_eq]
  split_ifs at h ⊢ with hblank hcomment hbracket hquote
  · have hend := (lineLength_end 1 rest).2
    have hle := le_lineLength (lineLength 1 rest).1 q
    rw [Front.seen_ofLine, lineLength_append]
    generalize lineLength 1 rest = line at h hend hle
    obtain ⟨n, _ | _⟩ := line
    · have : n = 1 + rest.length := hend rfl
      change rest.length + 1 < (lineLength n q).1 + 1
      change n ≤ (lineLength n q).1 at hle
      omega
    · cases h
  · cases hq : quotedLength false 1 rest with
    | some k =>
      rw [hq] at h
      cases h
    | none =>
      cases hlong : quotedLength false 1 (rest ++ q) with
      | some k =>
        have := lt_of_quotedLength_append hq hlong
        change rest.length + 1 < k
        omega
      | none =>
        change rest.length + 1 < (rest ++ q).length + 1 + 1
        rw [List.length_append]
        omega
  · have hend := (wordLength_end 0 0 (c :: rest)).2
    rw [Front.seen_ofWord, ← List.cons_append]
    rcases hword : wordLength 0 0 (c :: rest) with ⟨n, depth, _ | _⟩
    · have hn : n = 0 + (rest.length + 1) := by
        rw [hword] at hend
        exact hend rfl
      have hle := (wordLength_bounds depth n q).1
      rw [wordLength_append hword]
      omega
    · rw [hword] at h
      cases h

/-- No more is seen than the window and, where the text ends with it, this end. -/
theorem seen_front_le (atEnd : Bool) (c : UInt8) (rest : Bytes) :
    (front atEnd c rest).seen ≤ rest.length + 1 + atEnd.toNat := by
  rw [front_eq]
  split_ifs with hblank hcomment hbracket hquote
  · change 1 ≤ _
    omega
  · have hend := (lineLength_end 1 rest).1
    generalize lineLength 1 rest = line at hend
    obtain ⟨n, _ | _⟩ := line
    · cases atEnd
      · exact Nat.zero_le _
      · change n + 1 ≤ rest.length + 1 + 1
        change n + 0 ≤ 1 + rest.length at hend
        omega
    · change n + 1 ≤ _
      change n + 1 ≤ 1 + rest.length at hend
      omega
  · change 1 ≤ _
    omega
  · cases hq : quotedLength false 1 rest with
    | some k =>
      have := (quotedLength_bounds hq).2
      change k ≤ _
      omega
    | none =>
      cases atEnd
      · exact Nat.zero_le _
      · exact Nat.le_refl _
  · have hend := (wordLength_end 0 0 (c :: rest)).1
    rw [List.length_cons] at hend
    generalize wordLength 0 0 (c :: rest) = word at hend
    obtain ⟨n, depth, _ | _⟩ := word
    · cases atEnd
      · exact Nat.zero_le _
      · rw [Front.seen_ofWord]
        change n + 1 ≤ rest.length + 1 + 1
        change n + 0 ≤ 0 + (rest.length + 1) at hend
        omega
    · change n + 1 ≤ _
      change n + 1 ≤ 0 + (rest.length + 1) at hend
      omega

/-! ### The first token of a longer window -/

section Lengths

variable {atEnd : Bool} {c : UInt8} {rest : Bytes} {n seen : Nat}

private theorem length_of_skip (h : front atEnd c rest = .skip n seen) :
    0 < n ∧ n ≤ (c :: rest).length :=
  front_length (by rw [h]; rfl)

private theorem length_of_token (h : front atEnd c rest = .token n seen) :
    0 < n ∧ n ≤ (c :: rest).length :=
  front_length (by rw [h]; rfl)

private theorem length_drop_cons_le (hn : 0 < n) : ((c :: rest).drop n).length ≤ rest.length := by
  rw [List.length_drop, List.length_cons]
  omega

end Lengths

/-- As many items as the window has bytes are enough. -/
theorem splitFrom_eq_split {atEnd : Bool} {b : Bytes} (h : b.length ≤ fuel) :
    splitFrom atEnd fuel b = split b atEnd := by
  have hwalk {k : Nat} (hk : b.length ≤ k) :
      Positional.split b atEnd = .ok (splitFrom atEnd k b) := by
    rw [Positional.split, Positional.splitFrom_eq atEnd (Nat.zero_le _) (Nat.lt_succ_self _) hk,
      Split.after_zero, List.drop_zero]
  exact Except.ok.inj ((hwalk h).symm.trans (hwalk (Nat.le_refl _)))

private theorem split_of_skip {atEnd : Bool} {c : UInt8} {rest : Bytes} {n seen : Nat}
    (h : front atEnd c rest = .skip n seen) :
    split (c :: rest) atEnd = (split ((c :: rest).drop n) atEnd).after n := by
  rw [split, List.length_cons, splitFrom, h]
  change (splitFrom atEnd rest.length ((c :: rest).drop n)).after n = _
  rw [splitFrom_eq_split (length_drop_cons_le (length_of_skip h).1)]

private theorem split_of_token {atEnd : Bool} {c : UInt8} {rest : Bytes} {n seen : Nat}
    (h : front atEnd c rest = .token n seen) :
    split (c :: rest) atEnd = .token n ((c :: rest).take n) := by
  rw [split, List.length_cons, splitFrom, h]

private theorem split_of_open {atEnd : Bool} {c : UInt8} {rest : Bytes}
    (h : front atEnd c rest = .open) : split (c :: rest) atEnd = .more 0 := by
  rw [split, List.length_cons, splitFrom, h]

private theorem split_of_broken {atEnd : Bool} {c : UInt8} {rest : Bytes} {why : String}
    {seen : Nat} (h : front atEnd c rest = .broken why seen) :
    split (c :: rest) atEnd = .broken why := by
  rw [split, List.length_cons, splitFrom, h]

/-- A token takes at least one byte of the window. -/
theorem length_drop_of_split_token {tok : Bytes} {atEnd : Bool}
    (h : split window atEnd = .token a tok) :
    a ≤ window.length ∧ (window.drop a).length < window.length := by
  have hadvances := split_advances window atEnd
  rw [h] at hadvances
  obtain ⟨hne, skipped, rest, hwindow, ha⟩ := hadvances
  have hpos := List.length_pos_iff.mpr hne
  have hlen := congrArg List.length hwindow
  rw [List.length_append] at ha
  rw [List.length_append, List.length_append] at hlen
  rw [List.length_drop]
  omega

/-- A split skips no more than the window. -/
theorem le_of_split_more {atEnd : Bool} (h : split window atEnd = .more a) : a ≤ window.length := by
  have hadvances := split_advances window atEnd
  rw [h] at hadvances
  exact hadvances.1

/-- What a window tells about a longer one: a token stays, and where there is none yet, the longer
window is looked at behind the bytes that can be dropped. -/
def Split.resume (window : Bytes) (atEnd : Bool) : Split → Split
  | .more a => (split (window.drop a) atEnd).after a
  | .token a tok => .token a tok
  | .broken why => .broken why

private theorem Split.resume_after (s : Split) (window : Bytes) (atEnd : Bool) (n : Nat) :
    (s.after n).resume window atEnd = (s.resume (window.drop n) atEnd).after n := by
  cases s with
  | more a =>
    change (split (window.drop (n + a)) atEnd).after (n + a) = Split.after n (Split.after a _)
    rw [Split.after_after, List.drop_drop]
  | token a tok => rfl
  | broken why => rfl

/-- The first token of a window, from that of a front part of it. -/
theorem split_append (p q : Bytes) (atEnd : Bool) :
    split (p ++ q) atEnd = (split p false).resume (p ++ q) atEnd := by
  -- Along the items that are complete within `p`; each takes at least one byte.
  induction hlen : p.length using Nat.strong_induction_on generalizing p with
  | _ len ih =>
    cases p with
    | nil => exact (Split.after_zero _).symm
    | cons c rest =>
      have hkeep (h : front false c rest ≠ .open) :
          front atEnd c (rest ++ q) = front false c rest := front_append h atEnd q
      have hfits := front_fits false c rest
      cases hf : front false c rest with
      | skip n seen =>
        have hn := length_of_skip hf
        rw [hf] at hkeep
        rw [split_of_skip hf, Split.resume_after, List.cons_append,
          split_of_skip (hkeep Front.noConfusion), ← List.cons_append,
          List.drop_append_of_le_length hn.2,
          ih _ (by rw [← hlen, List.length_drop]; omega) _ rfl]
      | token n seen =>
        have hn := length_of_token hf
        rw [hf] at hkeep
        rw [split_of_token hf, List.cons_append, split_of_token (hkeep Front.noConfusion),
          ← List.cons_append, List.take_append_of_le_length hn.2]
        rfl
      | «open» =>
        rw [split_of_open hf]
        exact (Split.after_zero _).symm
      | broken why seen =>
        rw [hf] at hfits
        cases hfits

/-! ### Reading window by window -/

/-- The tokens of a text, behind the tokens read so far in reverse. -/
def tokensAfter (acc : List Bytes) (src : Bytes) : Except Cause (List Bytes) :=
  tokensFrom src.length acc src

/-- As many items as the text has bytes are enough. -/
theorem tokensFrom_eq_tokensAfter {acc : List Bytes} {src : Bytes} (h : src.length ≤ fuel) :
    tokensFrom fuel acc src = tokensAfter acc src := by
  induction hlen : src.length using Nat.strong_induction_on generalizing fuel acc src with
  | _ len ih =>
    cases src with
    | nil => cases fuel <;> rfl
    | cons c rest =>
      rw [List.length_cons] at h
      obtain ⟨fuel, rfl⟩ : ∃ k, fuel = k + 1 := ⟨fuel - 1, by omega⟩
      have hnext {n : Nat} (hn : 0 < n) (acc : List Bytes) :
          tokensFrom fuel acc ((c :: rest).drop n) =
            tokensFrom rest.length acc ((c :: rest).drop n) := by
        have hdrop : ((c :: rest).drop n).length ≤ rest.length := length_drop_cons_le hn
        have hlt : ((c :: rest).drop n).length < len := by
          rw [← hlen, List.length_cons]
          omega
        rw [ih _ hlt (by omega) rfl, ih _ hlt hdrop rfl]
      rw [tokensAfter, List.length_cons, tokensFrom, tokensFrom]
      cases hf : front true c rest with
      | skip n seen =>
        exact ite_congr rfl (fun _ => rfl) fun _ => hnext (length_of_skip hf).1 acc
      | token n seen =>
        exact ite_congr rfl (fun _ => rfl) fun _ => hnext (length_of_token hf).1 _
      | «open» => rfl
      | broken why seen => rfl

section Items

variable {c : UInt8} {rest : Bytes} {n seen : Nat} (acc : List Bytes)

private theorem tokensAfter_of_skip (h : front true c rest = .skip n seen)
    (hseen : seen ≤ windowSize) :
    tokensAfter acc (c :: rest) = tokensAfter acc ((c :: rest).drop n) := by
  rw [tokensAfter, List.length_cons, tokensFrom, h]
  change (if windowSize < seen then _ else _) = _
  rw [if_neg (Nat.not_lt.mpr hseen)]
  exact tokensFrom_eq_tokensAfter (length_drop_cons_le (length_of_skip h).1)

private theorem tokensAfter_of_token (h : front true c rest = .token n seen)
    (hseen : seen ≤ windowSize) :
    tokensAfter acc (c :: rest) = tokensAfter ((c :: rest).take n :: acc) ((c :: rest).drop n) := by
  rw [tokensAfter, List.length_cons, tokensFrom, h]
  change (if windowSize < seen then _ else _) = _
  rw [if_neg (Nat.not_lt.mpr hseen)]
  exact tokensFrom_eq_tokensAfter (length_drop_cons_le (length_of_token h).1)

private theorem tokensAfter_of_broken {why : String} (h : front true c rest = .broken why seen)
    (hseen : seen ≤ windowSize) :
    tokensAfter acc (c :: rest) = .error (.badToken (text why)) := by
  rw [tokensAfter, List.length_cons, tokensFrom, h]
  exact if_neg (Nat.not_lt.mpr hseen)

private theorem tokensAfter_of_lt_seen (h : windowSize < (front true c rest).seen) :
    tokensAfter acc (c :: rest) = .error .tokenTooLong := by
  rw [tokensAfter, List.length_cons, tokensFrom]
  cases hf : front true c rest with
  | «open» => rfl
  | skip n seen | token n seen | broken why seen =>
    rw [hf] at h
    exact if_pos h

end Items

/-- How the reading of a text goes on after a window at its front. -/
def Split.continue (acc : List Bytes) (src : Bytes) : Split → Except Cause (List Bytes)
  | .more a => tokensAfter acc (src.drop a)
  | .token a tok => tokensAfter (tok :: acc) (src.drop a)
  | .broken why => .error (.badToken (text why))

private theorem Split.continue_after (s : Split) (acc : List Bytes) (src : Bytes) (n : Nat) :
    (s.after n).continue acc src = s.continue acc (src.drop n) := by
  cases s <;> simp [Split.after, Split.continue, List.drop_drop]

/-- A window at the front of a text takes the reading of the text one step further. Where the text
ends with a window of the largest size, nothing in it may be too long by the end of the text. -/
theorem tokensAfter_window {atEnd : Bool} (acc : List Bytes) (hend : atEnd = true → q = [])
    (hsize : p.length ≤ windowSize) (hfull : atEnd = true →
      p.length < windowSize ∨ tokensAfter acc (p ++ q) ≠ .error .tokenTooLong) :
    tokensAfter acc (p ++ q) = (split p atEnd).continue acc (p ++ q) := by
  induction hlen : p.length using Nat.strong_induction_on generalizing p with
  | _ len ih =>
    cases p with
    | nil => rfl
    | cons c rest =>
      have hwhole (hf : front atEnd c rest ≠ .open) :
          front true c (rest ++ q) = front atEnd c rest := by
        cases atEnd with
        | false => exact front_append hf true q
        | true => rw [hend rfl, List.append_nil]
      have hseen (hf : front atEnd c rest ≠ .open) :
          (front atEnd c rest).seen ≤ windowSize := by
        by_contra hlt
        have hlong : tokensAfter acc (c :: (rest ++ q)) = .error .tokenTooLong := by
          apply tokensAfter_of_lt_seen
          rw [hwhole hf]
          exact Nat.not_le.mp hlt
        have hle := seen_front_le atEnd c rest
        rw [List.length_cons] at hsize hfull
        cases atEnd with
        | false => exact hlt (hle.trans hsize)
        | true =>
          rcases hfull rfl with hshort | hne
          · exact hlt (hle.trans hshort)
          · exact hne hlong
      cases hf : front atEnd c rest with
      | skip n seen =>
        have hn := length_of_skip hf
        rw [hf] at hwhole hseen
        have hread := tokensAfter_of_skip acc (hwhole Front.noConfusion) (hseen Front.noConfusion)
        rw [← List.cons_append] at hread
        rw [split_of_skip hf, Split.continue_after, hread, List.drop_append_of_le_length hn.2]
        rw [hread, List.drop_append_of_le_length hn.2] at hfull
        refine ih _ ?_ ?_ (fun he => (hfull he).imp_left fun hlt => ?_) rfl
        all_goals
          rw [List.length_drop]
          omega
      | token n seen =>
        have hn := length_of_token hf
        rw [hf] at hwhole hseen
        rw [split_of_token hf, List.cons_append,
          tokensAfter_of_token acc (hwhole Front.noConfusion) (hseen Front.noConfusion),
          ← List.cons_append, List.take_append_of_le_length hn.2]
        rfl
      | «open» =>
        rw [split_of_open hf]
        rfl
      | broken why seen =>
        rw [hf] at hwhole hseen
        rw [split_of_broken hf]
        exact tokensAfter_of_broken acc (hwhole Front.noConfusion) (hseen Front.noConfusion)

/-- At the end of the text, a window without a token leaves nothing to be read. -/
theorem tokensAfter_eq_ok_of_more (acc : List Bytes) (h : split p true = .more a) :
    tokensAfter acc (p.drop a) = .ok acc.reverse := by
  have hadvances := split_advances p true
  rw [h] at hadvances
  rw [hadvances.2 rfl, List.drop_length]
  rfl

private theorem Split.eq_zero_of_after {s : Split} {n : Nat} (h : s.after n = .more 0) : n = 0 := by
  cases s with
  | more a => exact (Nat.add_eq_zero_iff.mp (Split.more.inj h)).1
  | token a tok => cases h
  | broken why => cases h

private theorem front_eq_open_of_split {c : UInt8} {rest : Bytes}
    (h : split (c :: rest) false = .more 0) : front false c rest = .open := by
  have hfits := front_fits false c rest
  cases hf : front false c rest with
  | skip n seen =>
    rw [split_of_skip hf] at h
    exact absurd (Split.eq_zero_of_after h) (length_of_skip hf).1.ne'
  | token n seen =>
    rw [split_of_token hf] at h
    cases h
  | «open» => rfl
  | broken why seen =>
    rw [hf] at hfits
    cases hfits

/-- Where nothing can be dropped of a window of the largest size, its front is too long. -/
theorem tokensAfter_eq_tooLong (acc : List Bytes) (q : Bytes) (h : split p false = .more 0)
    (hsize : p.length = windowSize) : tokensAfter acc (p ++ q) = .error .tokenTooLong := by
  cases p with
  | nil => cases hsize
  | cons c rest =>
    apply tokensAfter_of_lt_seen acc
    rw [← hsize]
    exact lt_seen_of_open (front_eq_open_of_split h) q

end NamedStack.Lexer
