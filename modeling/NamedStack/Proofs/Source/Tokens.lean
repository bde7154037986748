import NamedStack.Source.Lexer

/-!
# Tokens with blanks between them

A text that is made of tokens with one blank between two of them is read as these tokens. A token
here is a bracket, or a word that starts with no special byte and leaves no parenthesis open; its
end is seen at the blank or at the end of the text that follows it.
-/

namespace NamedStack.Lexer

/-- What is read as one token wherever a blank or the end of the text follows. -/
inductive IsToken : Bytes → Prop
  | bracket {c : UInt8} (h : isBracket c = true) : IsToken [c]
  | word {c : UInt8} {rest : Bytes} (hblank : isBlank c = false) (hcomment : c ≠ 35)
      (hbracket : isBracket c = false) (hquote : c ≠ 39)
      (hclosed : wordLength 0 0 (c :: rest) = (rest.length + 1, 0, false)) : IsToken (c :: rest)

/-- Tokens with one blank between two of them. -/
inductive Spaced : List Bytes → Bytes → Prop
  | nil : Spaced [] []
  | last (t : Bytes) : Spaced [t] t
  | cons {t u : Bytes} {ts : List Bytes} {b : UInt8} {src : Bytes} (hb : isBlank b = true)
      (h : Spaced (u :: ts) src) : Spaced (t :: u :: ts) (t ++ b :: src)

namespace Spaced

/-- Tokens joined by a blank. -/
theorem join {b : UInt8} (hb : isBlank b = true) (ts : List Bytes) :
    Spaced ts (Bytes.join [b] ts) := by
  induction ts with
  | nil => exact .nil
  | cons t ts ih =>
    cases ts with
    | nil => exact .last t
    | cons u us =>
      rw [Bytes.join, List.append_assoc, List.singleton_append]
      · exact .cons hb ih
      · exact List.cons_ne_nil _ _

/-- Two texts with a blank between them. -/
theorem append {b : UInt8} (hb : isBlank b = true) {ts us : List Bytes} {src src' : Bytes}
    (h : Spaced ts src) (hts : ts ≠ []) (k : Spaced us src') (hus : us ≠ []) :
    Spaced (ts ++ us) (src ++ b :: src') := by
  obtain ⟨u, us, rfl⟩ := List.exists_cons_of_ne_nil hus
  induction h with
  | nil => exact absurd rfl hts
  | last t => exact .cons hb k
  | cons hc h ih =>
    rw [List.append_assoc, List.cons_append]
    exact .cons hc (ih (List.cons_ne_nil _ _))

/-- Lines of tokens. -/
theorem lines {blocks : List (List Bytes)} (hne : ∀ ts ∈ blocks, ts ≠ []) :
    Spaced blocks.flatten (Bytes.join (text "\n") (blocks.map (Bytes.join (text " ")))) := by
  have hspace : text " " = [32] := by decide
  have hnewline : text "\n" = [10] := by decide
  rw [hspace, hnewline]
  induction blocks with
  | nil => exact .nil
  | cons ts blocks ih =>
    obtain ⟨hts, hblocks⟩ := List.forall_mem_cons.mp hne
    have hline : Spaced ts (Bytes.join [32] ts) := join rfl ts
    cases blocks with
    | nil =>
      rw [List.flatten_singleton]
      exact hline
    | cons us blocks =>
      have hus : us ++ blocks.flatten ≠ [] :=
        fun h => hblocks us List.mem_cons_self (List.append_eq_nil_iff.mp h).1
      rw [List.flatten_cons, List.map_cons, List.map_cons, Bytes.join, List.append_assoc,
        List.singleton_append]
      · exact append rfl hline hts (ih hblocks) hus
      · exact List.cons_ne_nil _ _

end Spaced

/-! ### Reading -/

variable {t src : Bytes} {ts : List Bytes}

/-- A word goes on in what follows. -/
theorem wordLength_append {depth d : Int} {n k : Nat} (h : wordLength depth n t = (k, d, false))
    (u : Bytes) : wordLength depth n (t ++ u) = wordLength d k u := by
  induction t generalizing depth n with
  | nil =>
    cases h
    rfl
  | cons c t ih =>
    rw [List.cons_append, wordLength]
    rw [wordLength] at h
    split at h
    · next hc =>
      rw [if_pos hc]
      exact ih h
    · next hc =>
      rw [if_neg hc]
      split at h
      · next hc =>
        rw [if_pos hc]
        exact ih h
      · next hc =>
        rw [if_neg hc]
        split at h
        · cases h
        · next hc =>
          rw [if_neg hc]
          exact ih h

/-- Bytes among which no word ends: no parenthesis, and no blank or bracket outside of
parentheses. -/
theorem wordLength_inside {depth : Int}
    (h : ∀ c ∈ t, c ≠ 40 ∧ c ≠ 41 ∧ (depth ≠ 0 ∨ isBlank c = false ∧ isBracket c = false))
    (n : Nat) : wordLength depth n t = (n + t.length, depth, false) := by
  induction t generalizing n with
  | nil => rfl
  | cons c t ih =>
    obtain ⟨⟨hopen, hclose, hin⟩, ht⟩ := List.forall_mem_cons.mp h
    have hword : (decide (depth = 0) && (isBlank c || isBracket c)) = false := by
      rcases hin with hd | ⟨hblank, hbracket⟩
      · simp [hd]
      · simp [hblank, hbracket]
    rw [wordLength, if_neg hopen, if_neg hclose, hword, if_neg Bool.false_ne_true, ih ht,
      List.length_cons, Nat.add_assoc, Nat.add_comm 1]

/-- Whether a text is at its end or goes on with a blank. -/
def EndsWord (src : Bytes) : Prop := ∀ c ∈ src.head?, isBlank c = true

private theorem wordLength_endsWord (h : EndsWord src) (n : Nat) :
    ∃ more, wordLength 0 n src = (n, 0, more) := by
  cases src with
  | nil => exact ⟨false, rfl⟩
  | cons b src =>
    have hb : isBlank b = true := h b rfl
    have hopen : b ≠ 40 := fun hc => by subst hc; cases hb
    have hclose : b ≠ 41 := fun hc => by subst hc; cases hb
    refine ⟨true, ?_⟩
    rw [wordLength, if_neg hopen, if_neg hclose, hb]
    rfl

private theorem front_token {c : UInt8} {rest : Bytes} (h : IsToken (c :: rest))
    (hsrc : EndsWord src) :
    ∃ seen, front true c (rest ++ src) = .token (rest.length + 1) seen ∧
      seen ≤ rest.length + 2 := by
  cases h with
  | bracket hc =>
    have hblank : isBlank c = false := by
      simp only [isBracket, isBlank, Bool.or_eq_true, decide_eq_true_eq] at hc ⊢
      rcases hc with ((rfl | rfl) | rfl) | rfl <;> rfl
    have hcomment : c ≠ 35 := fun he => by subst he; cases hc
    refine ⟨1, ?_, by simp⟩
    rw [front, hblank, if_neg Bool.false_ne_true, if_neg hcomment, if_pos hc]
    rfl
  | word hblank hcomment hbracket hquote hclosed =>
    obtain ⟨more, hmore⟩ := wordLength_endsWord hsrc (rest.length + 1)
    have hword : wordLength 0 0 (c :: (rest ++ src)) = (rest.length + 1, 0, more) := by
      rw [← List.cons_append, wordLength_append hclosed, hmore]
    refine ⟨rest.length + 2, ?_, Nat.le_refl _⟩
    rw [front, hblank, if_neg Bool.false_ne_true, if_neg hcomment, hbracket,
      if_neg Bool.false_ne_true, if_neg hquote, hword]
    cases more <;> rfl

private theorem IsToken.append_inj {u src' : Bytes} (ht : IsToken t) (hu : IsToken u)
    (hsrc : EndsWord src) (hsrc' : EndsWord src') (h : t ++ src = u ++ src') :
    t = u ∧ src = src' := by
  cases t with
  | nil => cases ht
  | cons c rest =>
    cases u with
    | nil => cases hu
    | cons d rest' =>
      have hrest : rest ++ src = rest' ++ src' := (List.cons.inj h).2
      obtain ⟨_, hfront, -⟩ := front_token ht hsrc
      obtain ⟨_, hfront', -⟩ := front_token hu hsrc'
      rw [← (List.cons.inj h).1, ← hrest, hfront] at hfront'
      exact List.append_inj h (Front.token.inj hfront').1

/-- A text is made of tokens in one way only. -/
theorem Spaced.unique {us : List Bytes} (h : Spaced ts src) (k : Spaced us src)
    (hts : ∀ t ∈ ts, IsToken t) (hus : ∀ u ∈ us, IsToken u) : ts = us := by
  have hend : EndsWord [] := nofun
  have hgap {b : UInt8} (hb : isBlank b = true) (src : Bytes) : EndsWord (b :: src) :=
    fun c hc => Option.some.inj hc ▸ hb
  induction h generalizing us with
  | nil =>
    generalize hsrc : ([] : Bytes) = src at k
    cases k with
    | nil => rfl
    | last => cases hsrc ▸ hus _ List.mem_cons_self
    | cons => exact absurd hsrc.symm (by simp)
  | last t =>
    have ht := hts t List.mem_cons_self
    generalize hsrc : t = src at k
    cases k with
    | nil => cases hsrc ▸ ht
    | last => rfl
    | cons hb k =>
      have hu := hus _ List.mem_cons_self
      rw [← List.append_nil t] at hsrc
      cases (ht.append_inj hu hend (hgap hb _) hsrc).2
  | @cons t v ts b src hb h ih =>
    obtain ⟨ht, hts⟩ := List.forall_mem_cons.mp hts
    generalize hall : t ++ b :: src = all at k
    cases k with
    | nil => exact absurd hall (by simp)
    | last =>
      have hu := hus _ List.mem_cons_self
      rw [← List.append_nil all] at hall
      cases (ht.append_inj hu (hgap hb _) hend hall).2
    | cons hb' k =>
      obtain ⟨hu, hrest⟩ := List.forall_mem_cons.mp hus
      obtain ⟨rfl, hback⟩ := ht.append_inj hu (hgap hb _) (hgap hb' _) hall
      cases hback
      rw [ih k hts hrest]

private theorem tokensFrom_token (ht : IsToken t) (hlen : t.length < windowSize)
    (hsrc : EndsWord src) (fuel : Nat) (acc : List Bytes) :
    tokensFrom (fuel + 1) acc (t ++ src) = tokensFrom fuel (t :: acc) src := by
  cases t with
  | nil => cases ht
  | cons c rest =>
    obtain ⟨seen, hfront, hseen⟩ := front_token ht hsrc
    rw [List.length_cons] at hlen
    rw [List.cons_append, tokensFrom, hfront]
    dsimp only
    rw [if_neg (by omega), ← List.cons_append, ← List.length_cons (a := c), List.take_left,
      List.drop_left]

private theorem tokensFrom_blank {b : UInt8} (hb : isBlank b = true) (src : Bytes) (fuel : Nat)
    (acc : List Bytes) : tokensFrom (fuel + 1) acc (b :: src) = tokensFrom fuel acc src := by
  have hfront : front true b src = .skip 1 1 := by rw [front, if_pos hb]
  rw [tokensFrom, hfront]
  rfl

private theorem tokensFrom_spaced (h : Spaced ts src)
    (hts : ∀ t ∈ ts, IsToken t ∧ t.length < windowSize) {fuel : Nat} (hfuel : src.length ≤ fuel)
    (acc : List Bytes) : tokensFrom fuel acc src = .ok (acc.reverse ++ ts) := by
  have hpos {t : Bytes} (ht : IsToken t) : 0 < t.length := by cases ht <;> simp
  induction h generalizing fuel acc with
  | nil => rw [tokensFrom, List.append_nil]
  | last t =>
    obtain ⟨ht, hlen⟩ := hts t List.mem_cons_self
    obtain ⟨fuel, rfl⟩ := Nat.exists_eq_add_of_lt (Nat.lt_of_lt_of_le (hpos ht) hfuel)
    have hends : EndsWord [] := nofun
    have hread := tokensFrom_token ht hlen hends (0 + fuel) acc
    rw [List.append_nil] at hread
    rw [hread, tokensFrom, List.reverse_cons]
  | @cons t u ts b src hb h ih =>
    obtain ⟨⟨ht, hlen⟩, hrest⟩ := List.forall_mem_cons.mp hts
    have hone := hpos ht
    rw [List.length_append, List.length_cons] at hfuel
    obtain ⟨fuel, rfl⟩ : ∃ k, fuel = k + 2 := ⟨fuel - 2, by omega⟩
    have hends : EndsWord (b :: src) := fun c hc => Option.some.inj hc ▸ hb
    rw [tokensFrom_token ht hlen hends, tokensFrom_blank hb, ih hrest (by omega),
      List.reverse_cons, List.append_assoc, List.singleton_append]

/-- A text of tokens with blanks between them is read as these tokens, if none of them is too
long. -/
theorem tokens_spaced (h : Spaced ts src) (hts : ∀ t ∈ ts, IsToken t ∧ t.length < windowSize) :
    tokens src = .ok ts :=
  tokensFrom_spaced h hts (Nat.le_refl _) []

end NamedStack.Lexer
