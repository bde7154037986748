import Mathlib
import NamedStack.Text.Quoted

/-!
# Quoted texts are read back

The items of a byte string, written back, give the byte string. Between quotes each item can be read
back from what it is written as, whatever follows it, and none is written with a quote in front. So
a quoted text ends at the first quote that starts no item, and can be told from what follows it.
-/

namespace NamedStack.Text

/-- What a byte string can have as an item: a code point that UTF-8 encodes, or a byte that is no
character by itself. -/
def Rune.Valid : Rune → Prop
  | .char c => c < 0x110000 ∧ ¬ (0xD800 ≤ c ∧ c ≤ 0xDFFF)
  | .stray b => 0x80 ≤ b

/-! ### Items of a byte string -/

variable {n c v : Nat}

private theorem toNat_ofNat_lt (h : n < 256) : (UInt8.ofNat n).toNat = n := by
  rw [UInt8.toNat_ofNat', Nat.mod_eq_of_lt h]

private theorem ofNat_eq {b : UInt8} (h : n = b.toNat) : UInt8.ofNat n = b := by
  rw [h, UInt8.ofNat_toNat]

variable {k : Nat} {rest b r s : Bytes} {x : Rune} {asciiOnly : Bool}

private theorem continuation?_ofNat (h : k < 64) :
    continuation? (UInt8.ofNat (0x80 + k)) = some k := by
  simp only [continuation?, UInt8.le_iff_toNat_le, UInt8.reduceToNat,
    toNat_ofNat_lt (show 0x80 + k < 256 by omega)]
  rw [if_pos (by omega), Nat.add_sub_cancel_left]

private theorem drop_of_continuation {i : Nat} (h : (rest[i]? >>= continuation?) = some k) :
    k < 64 ∧ rest.drop i = UInt8.ofNat (0x80 + k) :: rest.drop (i + 1) := by
  obtain ⟨b, hb, hk⟩ := Option.bind_eq_some_iff.mp h
  simp only [continuation?, UInt8.le_iff_toNat_le, UInt8.reduceToNat, Option.ite_none_right_eq_some,
    Option.some.injEq] at hk
  obtain ⟨hi, rfl⟩ := List.getElem?_eq_some_iff.mp hb
  refine ⟨by omega, ?_⟩
  rw [List.drop_eq_getElem_cons hi, ofNat_eq (b := rest[i]) (by omega)]

private theorem multibyte?_eq_some {lead : UInt8} (h : multibyte? lead rest = some (c, n)) :
    (Rune.char c).Valid ∧ utf8 c ++ rest.drop n = lead :: rest := by
  unfold multibyte? at h
  simp only [UInt8.le_iff_toNat_le, UInt8.reduceToNat] at h
  split at h
  · next hl =>
    obtain ⟨x, hx, hc⟩ := Option.bind_eq_some_iff.mp h
    obtain ⟨hx, hrest⟩ := drop_of_continuation hx
    obtain ⟨rfl, rfl⟩ := Prod.mk.inj (Option.some.inj hc)
    refine ⟨⟨by omega, by omega⟩, ?_⟩
    rw [List.drop_zero] at hrest
    rw [utf8, if_neg (by omega), if_pos (by omega), ofNat_eq (b := lead) (by omega),
      Nat.mul_add_mod', Nat.mod_eq_of_lt hx]
    exact congrArg (lead :: ·) hrest.symm
  · split at h
    · next hl =>
      obtain ⟨x, hx, h⟩ := Option.bind_eq_some_iff.mp h
      obtain ⟨y, hy, h⟩ := Option.bind_eq_some_iff.mp h
      obtain ⟨hx, hrest⟩ := drop_of_continuation hx
      obtain ⟨hy, hrest'⟩ := drop_of_continuation hy
      split at h
      · cases h
      · next hc =>
        obtain ⟨rfl, rfl⟩ := Prod.mk.inj (Option.some.inj h)
        rw [List.drop_zero, hrest'] at hrest
        generalize hs : (lead.toNat - 224) * 4096 + x * 64 + y = c at hc ⊢
        refine ⟨⟨by omega, by omega⟩, ?_⟩
        have hlead : 0xE0 + c / 4096 = lead.toNat := by omega
        have hmid : c / 64 % 64 = x := by omega
        have hlow : c % 64 = y := by omega
        rw [utf8, if_neg (by omega), if_neg (by omega), if_pos (by omega), ofNat_eq hlead, hmid,
          hlow]
        exact congrArg (lead :: ·) hrest.symm
    · split at h
      · next hl =>
        obtain ⟨x, hx, h⟩ := Option.bind_eq_some_iff.mp h
        obtain ⟨y, hy, h⟩ := Option.bind_eq_some_iff.mp h
        obtain ⟨z, hz, h⟩ := Option.bind_eq_some_iff.mp h
        obtain ⟨hx, hrest⟩ := drop_of_continuation hx
        obtain ⟨hy, hrest'⟩ := drop_of_continuation hy
        obtain ⟨hz, hrest''⟩ := drop_of_continuation hz
        split at h
        · cases h
        · next hc =>
          obtain ⟨rfl, rfl⟩ := Prod.mk.inj (Option.some.inj h)
          rw [List.drop_zero, hrest', hrest''] at hrest
          generalize hs : (lead.toNat - 240) * 262144 + x * 4096 + y * 64 + z = c at hc ⊢
          refine ⟨⟨by omega, by omega⟩, ?_⟩
          have hlead : 0xF0 + c / 262144 = lead.toNat := by omega
          have hhigh : c / 4096 % 64 = x := by omega
          have hmid : c / 64 % 64 = y := by omega
          have hlow : c % 64 = z := by omega
          rw [utf8, if_neg (by omega), if_neg (by omega), if_neg (by omega), ofNat_eq hlead, hhigh,
            hmid, hlow]
          exact congrArg (lead :: ·) hrest.symm
      · cases h

private theorem frontRune_spec (a : UInt8) (rest : Bytes) :
    (frontRune a rest).1.Valid ∧
      (frontRune a rest).1.bytes ++ rest.drop (frontRune a rest).2 = a :: rest := by
  unfold frontRune
  split
  · next ha =>
    have hlt : a.toNat < 0x80 := UInt8.lt_iff_toNat_lt.mp ha
    refine ⟨⟨by omega, by omega⟩, ?_⟩
    rw [Rune.bytes, utf8, if_pos hlt, UInt8.ofNat_toNat]
    rfl
  · next ha =>
    split
    · next c n hm => exact multibyte?_eq_some hm
    · exact ⟨UInt8.not_lt.mp ha, rfl⟩

/-- The items of a byte string can stand in one. -/
theorem valid_of_mem_runes (h : x ∈ runes b) : x.Valid := by
  fun_induction runes b with
  | case1 => cases h
  | case2 a rest ih =>
    rcases List.mem_cons.mp h with rfl | h
    · exact (frontRune_spec a rest).1
    · exact ih h

/-- The items of a byte string, written back, give the byte string. -/
theorem flatMap_bytes_runes (b : Bytes) : (runes b).flatMap Rune.bytes = b := by
  fun_induction runes b with
  | case1 => rfl
  | case2 a rest ih => rw [List.flatMap_cons, ih, (frontRune_spec a rest).2]

private theorem multibyte?_utf8 (hc : (Rune.char c).Valid) (hlow : 0x80 ≤ c) (rest : Bytes) :
    ∃ lead more, utf8 c = lead :: more ∧ 0x80 ≤ lead.toNat ∧
      multibyte? lead (more ++ rest) = some (c, more.length) := by
  obtain ⟨hmax, hsur⟩ := hc
  by_cases h2 : c < 0x800
  · have hl : (UInt8.ofNat (0xC0 + c / 64)).toNat = 0xC0 + c / 64 := toNat_ofNat_lt (by omega)
    refine ⟨_, _, by rw [utf8, if_neg (by omega), if_pos h2], by omega, ?_⟩
    have hx := continuation?_ofNat (show c % 64 < 64 by omega)
    simp only [multibyte?, UInt8.le_iff_toNat_le, UInt8.reduceToNat, hl]
    rw [if_pos (by omega)]
    refine Option.bind_eq_some_iff.mpr ⟨_, hx, congrArg (fun k => some (k, 1)) ?_⟩
    omega
  · by_cases h3 : c < 0x10000
    · have hl : (UInt8.ofNat (0xE0 + c / 4096)).toNat = 0xE0 + c / 4096 := toNat_ofNat_lt (by omega)
      refine ⟨_, _, by rw [utf8, if_neg (by omega), if_neg h2, if_pos h3], by omega, ?_⟩
      have hx := continuation?_ofNat (show c / 64 % 64 < 64 by omega)
      have hy := continuation?_ofNat (show c % 64 < 64 by omega)
      have hsum : (0xE0 + c / 4096 - 0xE0) * 4096 + c / 64 % 64 * 64 + c % 64 = c := by omega
      simp only [multibyte?, UInt8.le_iff_toNat_le, UInt8.reduceToNat, hl]
      rw [if_neg (by omega), if_pos (by omega)]
      refine Option.bind_eq_some_iff.mpr ⟨_, hx, Option.bind_eq_some_iff.mpr ⟨_, hy, ?_⟩⟩
      rw [hsum, if_neg (by omega)]
      rfl
    · have hl : (UInt8.ofNat (0xF0 + c / 262144)).toNat = 0xF0 + c / 262144 :=
        toNat_ofNat_lt (by omega)
      refine ⟨_, _, by rw [utf8, if_neg (by omega), if_neg h2, if_neg h3], by omega, ?_⟩
      have hx := continuation?_ofNat (show c / 4096 % 64 < 64 by omega)
      have hy := continuation?_ofNat (show c / 64 % 64 < 64 by omega)
      have hz := continuation?_ofNat (show c % 64 < 64 by omega)
      have hsum : (0xF0 + c / 262144 - 0xF0) * 262144 + c / 4096 % 64 * 4096 + c / 64 % 64 * 64 +
          c % 64 = c := by omega
      simp only [multibyte?, UInt8.le_iff_toNat_le, UInt8.reduceToNat, hl]
      rw [if_neg (by omega), if_neg (by omega), if_pos (by omega)]
      refine Option.bind_eq_some_iff.mpr ⟨_, hx, Option.bind_eq_some_iff.mpr ⟨_, hy,
        Option.bind_eq_some_iff.mpr ⟨_, hz, ?_⟩⟩⟩
      rw [hsum, if_neg (by omega)]
      rfl

/-- The encoding of a code point is read as that code point, whatever follows. -/
theorem frontRune_utf8 (hc : (Rune.char c).Valid) (rest : Bytes) :
    ∃ a more, utf8 c = a :: more ∧ frontRune a (more ++ rest) = (.char c, more.length) ∧
      (a.toNat = c ∨ 0x80 ≤ a.toNat) := by
  by_cases hlow : c < 0x80
  · have ha : (UInt8.ofNat c).toNat = c := toNat_ofNat_lt (by omega)
    have hlt : UInt8.ofNat c < 0x80 := by
      rw [UInt8.lt_iff_toNat_lt, ha]
      exact hlow
    refine ⟨UInt8.ofNat c, [], by rw [utf8, if_pos hlow], ?_, .inl ha⟩
    rw [frontRune, if_pos hlt, ha]
    rfl
  · obtain ⟨a, more, hutf, ha, hmulti⟩ := multibyte?_utf8 hc (Nat.not_lt.mp hlow) rest
    refine ⟨a, more, hutf, ?_, .inr ha⟩
    have hnot : ¬ a < 0x80 := fun h => Nat.not_lt.mpr ha (UInt8.lt_iff_toNat_lt.mp h)
    rw [frontRune, if_neg hnot, hmulti]

/-! ### Items inside of quotes -/

/-- The number that hexadecimal digits stand for. -/
def hexNumber? (b : Bytes) : Option Nat :=
  b.foldlM (fun acc c => (Hex.value? c).map (16 * acc + ·)) 0

/-- Read a number of so many hexadecimal digits. -/
def readHex? (n : Nat) (b : Bytes) : Option (Nat × Bytes) :=
  (hexNumber? (b.take n)).map (·, b.drop n)

/-- The control character that a letter stands for after a backslash. -/
def controlCode? (letter : UInt8) : Option Nat :=
  [(97, 7), (98, 8), (102, 12), (110, 10), (114, 13), (116, 9), (118, 11)].lookup letter

/-- Read what stands after a backslash. -/
def readEscape? : Bytes → Option (Rune × Bytes)
  | [] => none
  | k :: rest =>
    if k = 34 ∨ k = 92 then some (.char k.toNat, rest)
    else if k = 120 then (readHex? 2 rest).map fun r =>
      (if r.1 < 0x80 then .char r.1 else .stray (UInt8.ofNat r.1), r.2)
    else if k = 117 then (readHex? 4 rest).map fun r => (.char r.1, r.2)
    else if k = 85 then (readHex? 8 rest).map fun r => (.char r.1, r.2)
    else (controlCode? k).map (.char ·, rest)

/-- Read one item of a text between double quotes; the closing quote starts none. -/
def readItem? : Bytes → Option (Rune × Bytes)
  | [] => none
  | a :: rest =>
    if a = 34 then none
    else if a = 92 then readEscape? rest
    else some ((frontRune a rest).1, rest.drop (frontRune a rest).2)

private theorem length_hexDigits (n v : Nat) : (hexDigits n v).length = n := by
  induction n generalizing v with
  | zero => rfl
  | succ n ih => rw [hexDigits, List.length_append, ih, List.length_singleton]

private theorem hexNumber?_hexDigits (h : v < 16 ^ n) : hexNumber? (hexDigits n v) = some v := by
  induction n generalizing v with
  | zero =>
    rw [pow_zero, Nat.lt_one_iff] at h
    rw [h]
    rfl
  | succ n ih =>
    have hfront : hexNumber? (hexDigits n (v / 16)) = some (v / 16) := ih (by omega)
    have hdigit := Hex.value?_digit (v % 16) (by omega)
    unfold hexNumber? at hfront ⊢
    rw [hexDigits, List.foldlM_append, hfront]
    simp [hdigit]
    omega

private theorem readHex?_hexDigits (h : v < 16 ^ n) (rest : Bytes) :
    readHex? n (hexDigits n v ++ rest) = some (v, rest) := by
  have hlen := length_hexDigits n v
  rw [readHex?, List.take_left' hlen, List.drop_left' hlen, hexNumber?_hexDigits h]
  rfl

private theorem readEscape?_controlLetter {letter : UInt8} (h : controlLetter? c = some letter)
    (rest : Bytes) : readEscape? (letter :: rest) = some (.char c, rest) := by
  obtain ⟨before, after, hl, -⟩ := List.lookup_eq_some_iff.mp h
  have hmem : (c, letter) ∈ before ++ (c, letter) :: after := List.mem_append_cons_self
  rw [← hl] at hmem
  simp only [List.mem_cons, Prod.mk.injEq, List.not_mem_nil, or_false] at hmem
  rcases hmem with ⟨rfl, rfl⟩ | ⟨rfl, rfl⟩ | ⟨rfl, rfl⟩ | ⟨rfl, rfl⟩ | ⟨rfl, rfl⟩ | ⟨rfl, rfl⟩ |
    ⟨rfl, rfl⟩ <;> rfl

private theorem readEscape?_hex {k : UInt8} (hk : k = 117 ∧ n = 4 ∨ k = 85 ∧ n = 8)
    (hc : c < 16 ^ n) (rest : Bytes) :
    readEscape? (k :: (hexDigits n c ++ rest)) = some (.char c, rest) := by
  rcases hk with ⟨rfl, rfl⟩ | ⟨rfl, rfl⟩
  · rw [readEscape?, if_neg (by decide), if_neg (by decide), if_pos rfl, readHex?_hexDigits hc]
    rfl
  · rw [readEscape?, if_neg (by decide), if_neg (by decide), if_neg (by decide), if_pos rfl,
      readHex?_hexDigits hc]
    rfl

private theorem readEscape?_byte (hv : v < 256) (rest : Bytes) :
    readEscape? (120 :: (hexDigits 2 v ++ rest)) =
      some (if v < 0x80 then .char v else .stray (UInt8.ofNat v), rest) := by
  rw [readEscape?, if_neg (by decide), if_pos rfl, readHex?_hexDigits hv]
  rfl

/-- An item is read back from what it is written as between quotes, whatever follows. -/
theorem readItem?_escape (hx : x.Valid) (asciiOnly : Bool) (rest : Bytes) :
    readItem? (escape asciiOnly x ++ rest) = some (x, rest) := by
  have hbyte : text "\\x" = [92, 120] := by decide
  have hfour : text "\\u" = [92, 117] := by decide
  have height : text "\\U" = [92, 85] := by decide
  cases x with
  | stray b =>
    have hb : 0x80 ≤ b.toNat := UInt8.le_iff_toNat_le.mp hx
    rw [escape, hbyte]
    refine (readEscape?_byte b.toNat_lt rest).trans ?_
    rw [if_neg (Nat.not_lt.mpr hb), UInt8.ofNat_toNat]
  | char c =>
    obtain ⟨hmax, -⟩ := id hx
    rw [escape, escapeChar]
    split
    · next hc =>
      have hk : UInt8.ofNat c = 34 ∨ UInt8.ofNat c = 92 := hc.imp (congrArg _) (congrArg _)
      refine (if_pos hk).trans ?_
      rw [toNat_ofNat_lt (by omega)]
      rfl
    · next hc =>
      rw [not_or] at hc
      split
      · obtain ⟨a, more, hutf, hfront, ha⟩ := frontRune_utf8 hx rest
        have hplain {k : UInt8} (hk : k.toNat < 0x80) (hne : c ≠ k.toNat) : a ≠ k := by
          rintro rfl
          omega
        rw [hutf, List.cons_append, readItem?, if_neg (hplain (k := 34) (by decide) hc.1),
          if_neg (hplain (k := 92) (by decide) hc.2), hfront, List.drop_left]
      · split
        · next letter hl => exact readEscape?_controlLetter hl rest
        · split
          · next hctl =>
            rw [hbyte]
            refine (readEscape?_byte (by omega) rest).trans ?_
            rw [if_pos (by omega)]
          · split
            · next hsmall =>
              rw [hfour]
              exact readEscape?_hex (.inl ⟨rfl, rfl⟩) hsmall rest
            · rw [height]
              exact readEscape?_hex (.inr ⟨rfl, rfl⟩) (by omega) rest

/-! ### Whole texts -/

private theorem escaped_append_inj {xs ys : List Rune} (hxs : ∀ x ∈ xs, x.Valid)
    (hys : ∀ y ∈ ys, y.Valid)
    (h : xs.flatMap (escape asciiOnly) ++ 34 :: r = ys.flatMap (escape asciiOnly) ++ 34 :: s) :
    xs = ys ∧ r = s := by
  have hclose (t : Bytes) : readItem? (34 :: t) = none := rfl
  induction xs generalizing ys with
  | nil =>
    cases ys with
    | nil => exact ⟨rfl, (List.cons.inj h).2⟩
    | cons y ys =>
      have hread := hclose r
      rw [List.flatMap_nil, List.nil_append] at h
      rw [h, List.flatMap_cons, List.append_assoc,
        readItem?_escape (hys y List.mem_cons_self)] at hread
      cases hread
  | cons x xs ih =>
    obtain ⟨hx, htail⟩ := List.forall_mem_cons.mp hxs
    rw [List.flatMap_cons, List.append_assoc] at h
    have hread := readItem?_escape hx asciiOnly (xs.flatMap (escape asciiOnly) ++ 34 :: r)
    cases ys with
    | nil =>
      rw [h, List.flatMap_nil, List.nil_append, hclose] at hread
      cases hread
    | cons y ys =>
      obtain ⟨hy, htail'⟩ := List.forall_mem_cons.mp hys
      rw [h, List.flatMap_cons, List.append_assoc, readItem?_escape hy] at hread
      obtain ⟨rfl, hrest⟩ := Prod.mk.inj (Option.some.inj hread)
      obtain ⟨rfl, hrs⟩ := ih htail htail' hrest.symm
      exact ⟨rfl, hrs⟩

/-- A quoted text can be told from what follows it. -/
theorem quoteWith_append_inj {a : Bytes}
    (h : quoteWith asciiOnly a ++ r = quoteWith asciiOnly b ++ s) : a = b ∧ r = s := by
  simp only [quoteWith, List.append_assoc, List.singleton_append] at h
  obtain ⟨hitems, hrest⟩ := escaped_append_inj (fun _ => valid_of_mem_runes)
    (fun _ => valid_of_mem_runes) (List.cons.inj h).2
  refine ⟨?_, hrest⟩
  rw [← flatMap_bytes_runes a, hitems, flatMap_bytes_runes]

end NamedStack.Text
