import NamedStack.Log
import NamedStack.Proofs.Text.Quoted

/-!
# Entries tell their pairs apart

The pairs of an entry can be read off from it as long as a value that starts with a quote is written
between quotes: a key ends at the first equals sign, a value between quotes where its quotes end,
and any other value at the first delimiter. A value that starts with a quote and has no delimiter is
written as it is, and together with the pairs behind it can look like one value between quotes.
-/

namespace NamedStack.Log

/-- Pairs of texts as a list in which keys and values alternate. -/
def fields (ps : List (Bytes × Bytes)) : List Scalar := ps.flatMap fun p => [.str p.1, .str p.2]

/-- A key that is written as it is. -/
def PlainKey (k : Bytes) : Prop := k ≠ [] ∧ ∀ c ∈ k, c ∉ illegalInKey

/-- Pairs with plain keys, of which the first does not replace the place that wrote the entry. -/
def Regular (ps : List (Bytes × Bytes)) : Prop :=
  (∀ p ∈ ps, PlainKey p.1) ∧ ∀ p ∈ ps.head?, p.1 ≠ callerKey

/-- A value that is written between quotes if it starts with one. -/
def QuotesQuote (v : Bytes) : Prop := v.head? = some 34 → v.any delimiters.contains = true

instance : DecidablePred PlainKey := fun k =>
  inferInstanceAs (Decidable (k ≠ [] ∧ ∀ c ∈ k, c ∉ illegalInKey))

instance : DecidablePred Regular := fun ps =>
  inferInstanceAs (Decidable ((∀ p ∈ ps, PlainKey p.1) ∧ ∀ p ∈ ps.head?, p.1 ≠ callerKey))

instance : DecidablePred QuotesQuote := fun v =>
  inferInstanceAs (Decidable (v.head? = some 34 → v.any delimiters.contains = true))

/-! ### Where a part ends -/

variable {r s v : Bytes}

private theorem append_cons_inj {stop : UInt8 → Bool} {l m : Bytes} {c d : UInt8}
    (hl : l.any stop = false) (hm : m.any stop = false) (hc : stop c = true) (hd : stop d = true)
    (h : l ++ c :: r = m ++ d :: s) : l = m ∧ c :: r = d :: s := by
  induction l generalizing m with
  | nil =>
    cases m with
    | nil => exact ⟨rfl, h⟩
    | cons y m =>
      rw [List.any_cons, ← (List.cons.inj h).1, hc] at hm
      cases hm
  | cons x l ih =>
    cases m with
    | nil =>
      rw [List.any_cons, (List.cons.inj h).1, hd] at hl
      cases hl
    | cons y m =>
      rw [List.any_cons, Bool.or_eq_false_iff] at hl hm
      obtain ⟨rfl, hrest⟩ := List.cons.inj h
      obtain ⟨rfl, hback⟩ := ih hl.2 hm.2 hrest
      exact ⟨rfl, hback⟩

/-- A text that starts with a delimiter. -/
def EndsValue (r : Bytes) : Prop := ∃ c ∈ r.head?, delimiters.contains c = true

private theorem head?_append_ne_quote (hv : QuotesQuote v)
    (hraw : v.any delimiters.contains = false) (hr : EndsValue r) : (v ++ r).head? ≠ some 34 := by
  intro hhead
  cases v with
  | nil =>
    obtain ⟨c, hc, hdelim⟩ := hr
    rw [List.nil_append, Option.mem_def.mp hc] at hhead
    cases hhead
    exact absurd hdelim (by decide)
  | cons a v =>
    rw [hv hhead] at hraw
    cases hraw

private theorem value_quoted (h : v.any delimiters.contains = true) :
    value (.str v) = Text.quote v := if_pos h

private theorem value_raw (h : v.any delimiters.contains = false) : value (.str v) = v :=
  if_neg (Bool.eq_false_iff.mp h)

private theorem value_append_inj {w : Bytes} (hv : QuotesQuote v) (hw : QuotesQuote w)
    (hr : EndsValue r) (hs : EndsValue s) (h : value (.str v) ++ r = value (.str w) ++ s) :
    v = w ∧ r = s := by
  have hquote (b t : Bytes) : (Text.quote b ++ t).head? = some 34 := rfl
  cases hvq : v.any delimiters.contains with
  | true =>
    rw [value_quoted hvq] at h
    cases hwq : w.any delimiters.contains with
    | true =>
      rw [value_quoted hwq] at h
      exact Text.quoteWith_append_inj h
    | false =>
      rw [value_raw hwq] at h
      exact absurd (h ▸ hquote v r) (head?_append_ne_quote hw hwq hs)
  | false =>
    rw [value_raw hvq] at h
    cases hwq : w.any delimiters.contains with
    | true =>
      rw [value_quoted hwq] at h
      exact absurd (h ▸ hquote w s) (head?_append_ne_quote hv hvq hr)
    | false =>
      obtain ⟨c, hc, hcd⟩ := hr
      obtain ⟨d, hd, hdd⟩ := hs
      obtain ⟨r, rfl⟩ := List.head?_eq_some_iff.mp hc
      obtain ⟨s, rfl⟩ := List.head?_eq_some_iff.mp hd
      rw [value_raw hwq] at h
      exact append_cons_inj hvq hwq hcd hdd h

/-! ### Pairs -/

/-- One pair of texts, with the space in front of it. -/
def pairOf (p : Bytes × Bytes) : Bytes := pair (.str p.1) (.str p.2)

private theorem pairOf_eq {p : Bytes × Bytes} (hp : PlainKey p.1) :
    pairOf p = 32 :: (p.1 ++ 61 :: value (.str p.2)) := by
  have hspace : text " " = [32] := by decide
  have hequals : text "=" = [61] := by decide
  have hsame : ∀ c ∈ p.1, (if illegalInKey.contains c then 45 else c) = c :=
    fun c hc => if_neg (by simpa using hp.2 c hc)
  have hkey : key (.str p.1) = p.1 := by
    rw [key, Scalar.print, if_neg (by simpa using hp.1), List.map_congr_left hsame, List.map_id']
  simp [pairOf, pair, hspace, hequals, hkey]

private theorem pairOf_append_inj {p q : Bytes × Bytes} (hp : PlainKey p.1) (hq : PlainKey q.1)
    (hpv : QuotesQuote p.2) (hqv : QuotesQuote q.2) (hr : EndsValue r) (hs : EndsValue s)
    (h : pairOf p ++ r = pairOf q ++ s) : p = q ∧ r = s := by
  have hequals : (61 : UInt8) ∈ illegalInKey := by decide
  have hstop {k : Bytes} (hk : ∀ c ∈ k, c ∉ illegalInKey) : k.any (· == 61) = false := by
    rw [List.any_eq_false]
    intro c hc he
    rw [beq_iff_eq] at he
    exact hk c hc (he ▸ hequals)
  rw [pairOf_eq hp, pairOf_eq hq] at h
  simp only [List.cons_append, List.append_assoc] at h
  obtain ⟨hkey, hrest⟩ := append_cons_inj (hstop hp.2) (hstop hq.2) rfl rfl (List.cons.inj h).2
  obtain ⟨hvalue, hrs⟩ := value_append_inj hpv hqv hr hs (List.cons.inj hrest).2
  exact ⟨Prod.ext hkey hvalue, hrs⟩

private theorem endsValue_pairs (ps : List (Bytes × Bytes)) :
    EndsValue (ps.flatMap pairOf ++ [10]) := by
  cases ps with
  | nil => exact ⟨10, rfl, by decide⟩
  | cons p ps => exact ⟨32, rfl, by decide⟩

private theorem pairs_inj {ps qs : List (Bytes × Bytes)}
    (hps : ∀ p ∈ ps, PlainKey p.1 ∧ QuotesQuote p.2)
    (hqs : ∀ p ∈ qs, PlainKey p.1 ∧ QuotesQuote p.2)
    (h : ps.flatMap pairOf ++ [10] = qs.flatMap pairOf ++ [10]) : ps = qs := by
  have hspace (p : Bytes × Bytes) (r : Bytes) : (pairOf p ++ r).head? = some 32 := rfl
  induction ps generalizing qs with
  | nil =>
    cases qs with
    | nil => rfl
    | cons q qs =>
      rw [List.flatMap_cons, List.append_assoc] at h
      cases (congrArg List.head? h).trans (hspace q _)
  | cons p ps ih =>
    cases qs with
    | nil =>
      rw [List.flatMap_cons, List.append_assoc] at h
      cases (congrArg List.head? h).symm.trans (hspace p _)
    | cons q qs =>
      obtain ⟨⟨hpk, hpv⟩, hpt⟩ := List.forall_mem_cons.mp hps
      obtain ⟨⟨hqk, hqv⟩, hqt⟩ := List.forall_mem_cons.mp hqs
      rw [List.flatMap_cons, List.flatMap_cons, List.append_assoc, List.append_assoc] at h
      obtain ⟨rfl, hrest⟩ :=
        pairOf_append_inj hpk hqk hpv hqv (endsValue_pairs ps) (endsValue_pairs qs) h
      rw [ih hpt hqt hrest]

/-! ### Entries -/

private theorem pairs_fields (ps : List (Bytes × Bytes)) :
    pairs (fields ps) = ps.flatMap pairOf := by
  induction ps with
  | nil => rfl
  | cons p ps ih =>
    rw [List.flatMap_cons, ← ih]
    rfl

private theorem stackOf_fields (sofar : Bytes) (ps : List (Bytes × Bytes)) :
    stackOf sofar (fields ps) = sofar := by
  induction ps with
  | nil => rfl
  | cons p ps ih => exact ih

private theorem evened_fields (ps : List (Bytes × Bytes)) : evened (fields ps) = fields ps := by
  have hlen : (fields ps).length = 2 * ps.length := by
    induction ps with
    | nil => rfl
    | cons p ps ih =>
      rw [List.length_cons, Nat.mul_succ, ← ih]
      rfl
  rw [evened, if_neg (by omega)]

private theorem entry_fields (s : Stamp) {ps : List (Bytes × Bytes)} (h : Regular ps) :
    entry s (fields ps) = header s s.caller ++ (ps.flatMap pairOf ++ [10]) := by
  have hline : text "\n" = [10] := by decide
  have hcaller : callerOf s (fields ps) = (s.caller, fields ps) := by
    cases ps with
    | nil => rfl
    | cons p ps => exact if_neg fun he => h.2 p rfl (Scalar.str.inj he)
  simp only [entry, evened_fields, hcaller, pairs_fields, stackOf_fields, hline]
  simp [stackLines]

/-- Two lists of pairs have the same entry only if they are the same, as long as no value starts
with a quote that is written without quotes around it. -/
theorem entry_tells_pairs (s : Stamp) {ps qs : List (Bytes × Bytes)} (hps : Regular ps)
    (hqs : Regular qs) (hpv : ∀ p ∈ ps, QuotesQuote p.2) (hqv : ∀ q ∈ qs, QuotesQuote q.2) :
    entry s (fields ps) = entry s (fields qs) ↔ ps = qs := by
  constructor
  · intro h
    rw [entry_fields s hps, entry_fields s hqs] at h
    exact pairs_inj (fun p hp => ⟨hps.1 p hp, hpv p hp⟩) (fun q hq => ⟨hqs.1 q hq, hqv q hq⟩)
      (List.append_cancel_left h)
  · intro h
    rw [h]

/-- The start of an entry that has no unit. -/
def bareStamp : Stamp := { caller := text "main:1", time := text "now" }

/-- One value with a pair and quotes in it. -/
def inOneValue : List (Bytes × Bytes) := [(text "k", text "x\" y=z\"")]

/-- Two pairs with a quote at the end of each value. -/
def inTwoValues : List (Bytes × Bytes) := [(text "k", text "x\""), (text "y", text "z\"")]

/-- Values that hold quotes, one of them with a pair in it. -/
theorem entry_tells_pairs_inner_quotes :
    (Regular inOneValue ∧ ∀ p ∈ inOneValue, QuotesQuote p.2) ∧
      (Regular inTwoValues ∧ ∀ p ∈ inTwoValues, QuotesQuote p.2) ∧
      entry bareStamp (fields inOneValue) ≠ entry bareStamp (fields inTwoValues) := by
  have hone : Regular inOneValue ∧ ∀ p ∈ inOneValue, QuotesQuote p.2 := by decide +kernel
  have htwo : Regular inTwoValues ∧ ∀ p ∈ inTwoValues, QuotesQuote p.2 := by decide +kernel
  refine ⟨hone, htwo, fun h => ?_⟩
  have hsame := (entry_tells_pairs bareStamp hone.1 htwo.1 hone.2 htwo.2).mp h
  exact absurd hsame (by decide)

/-- One value with a pair in it. -/
def spaced : List (Bytes × Bytes) := [(text "k", text "x y=z")]

/-- Two pairs, with a quote at the start of the first value and at the end of the second. -/
def torn : List (Bytes × Bytes) := [(text "k", text "\"x"), (text "y", text "z\"")]

/-- Values that start with a quote and are not quoted make two lists of pairs look the same. -/
theorem entry_confuses_leading_quote :
    (Regular spaced ∧ Regular torn) ∧ spaced ≠ torn ∧
      entry bareStamp (fields spaced) = entry bareStamp (fields torn) := by
  decide +kernel

end NamedStack.Log
