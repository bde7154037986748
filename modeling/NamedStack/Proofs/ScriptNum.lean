import Mathlib
import NamedStack.ScriptNum

/-!
# The value of a script number

A byte string has a magnitude, which leaves out the high bit of its last byte, and a sign, which is
that bit. Reading up to eight bytes in words of 64 bits gives the number with this magnitude and
sign. A byte string is in shortest form exactly if its magnitude needs all of its bytes, and writing
gives the one shortest form of each number.
-/

namespace NamedStack.ScriptNum

/-- The bytes as digits in base 256, without the high bit of the last one. -/
def magnitude : Bytes → Nat
  | [] => 0
  | [b] => b.toNat % 128
  | b :: c :: rest => b.toNat + 256 * magnitude (c :: rest)

/-- Whether the high bit of the last byte is set. -/
def isNegative : Bytes → Bool
  | [] => false
  | [b] => 128 ≤ b.toNat
  | _ :: c :: rest => isNegative (c :: rest)

/-- The number with the magnitude and the sign of a byte string. -/
def value (v : Bytes) : Int := if isNegative v then -(magnitude v : Int) else magnitude v

/-! ### Digits -/

private theorem toNatLE_append (l m : Bytes) :
    Bytes.toNatLE (l ++ m) = Bytes.toNatLE l + 256 ^ l.length * Bytes.toNatLE m := by
  induction l with
  | nil => simp [Bytes.toNatLE]
  | cons b l ih =>
    simp only [List.cons_append, Bytes.toNatLE, ih, List.length_cons, pow_succ]
    ring

/-- A number is below the power of its bytes. -/
theorem toNatLE_lt (l : Bytes) : Bytes.toNatLE l < 256 ^ l.length := by
  induction l with
  | nil => simp [Bytes.toNatLE]
  | cons b l ih =>
    have hb : b.toNat < 256 := b.toNat_lt
    simp only [Bytes.toNatLE, List.length_cons, pow_succ]
    omega

private theorem toNatLE_inj {l m : Bytes} (hl : l.length = m.length)
    (h : Bytes.toNatLE l = Bytes.toNatLE m) : l = m := by
  induction l generalizing m with
  | nil => exact (List.length_eq_zero_iff.mp hl.symm).symm
  | cons b l ih =>
    cases m with
    | nil => simp at hl
    | cons c m =>
      have hb : b.toNat < 256 := b.toNat_lt
      have hc : c.toNat < 256 := c.toNat_lt
      simp only [Bytes.toNatLE] at h
      have hbc : b = c := UInt8.toNat_inj.mp (by omega)
      have hlm : l = m := ih (Nat.succ.inj hl) (by omega)
      rw [hbc, hlm]

private theorem toNatLE_digits (n : Nat) : Bytes.toNatLE (digits n) = n := by
  induction n using Nat.strongRecOn with
  | ind n ih =>
    rw [digits]
    split
    · next h => rw [h]; rfl
    · next h =>
      rw [Bytes.toNatLE, ih (n / 256) (by omega), UInt8.toNat_ofNat']
      omega

private theorem digits_ne_nil {n : Nat} (h : n ≠ 0) : digits n ≠ [] := by
  rw [digits, if_neg h]
  exact List.cons_ne_nil _ _

private theorem getLast_digits_pos (n : Nat) (h : n ≠ 0) :
    0 < ((digits n).getLast (digits_ne_nil h)).toNat := by
  induction n using Nat.strongRecOn with
  | ind n ih =>
    by_cases hn : n / 256 = 0
    · have hd : digits n = [UInt8.ofNat n] := by
        rw [digits, if_neg h, hn, digits, if_pos rfl]
      simp only [hd, List.getLast_singleton, UInt8.toNat_ofNat']
      omega
    · have hd : digits n = UInt8.ofNat n :: digits (n / 256) := by rw [digits, if_neg h]
      have hi := ih (n / 256) (by omega) hn
      simp only [hd]
      rw [List.getLast_cons (digits_ne_nil hn)]
      exact hi

/-! ### Magnitude and sign -/

private theorem magnitude_concat (l : Bytes) (t : UInt8) :
    magnitude (l ++ [t]) = Bytes.toNatLE l + 256 ^ l.length * (t.toNat % 128) := by
  induction l with
  | nil => simp [magnitude, Bytes.toNatLE]
  | cons b l ih =>
    have hc : magnitude (b :: (l ++ [t])) = b.toNat + 256 * magnitude (l ++ [t]) := by
      cases l <;> rfl
    rw [List.cons_append, hc, ih, Bytes.toNatLE, List.length_cons, pow_succ]
    ring

private theorem isNegative_concat (l : Bytes) (t : UInt8) :
    isNegative (l ++ [t]) = decide (128 ≤ t.toNat) := by
  induction l with
  | nil => rfl
  | cons b l ih =>
    have hc : isNegative (b :: (l ++ [t])) = isNegative (l ++ [t]) := by cases l <;> rfl
    rw [List.cons_append, hc, ih]

/-- The magnitude of a byte string has one bit less than its bytes. -/
theorem two_mul_magnitude_lt (v : Bytes) (h : v ≠ []) : 2 * magnitude v < 256 ^ v.length := by
  obtain ⟨l, t, rfl⟩ := List.eq_nil_or_concat' v |>.resolve_left h
  have hl := toNatLE_lt l
  have ht : t.toNat % 128 + 1 ≤ 128 := by omega
  have hm := Nat.mul_le_mul_left (256 ^ l.length) ht
  rw [magnitude_concat, List.length_append, List.length_singleton, pow_succ]
  rw [Nat.mul_add, Nat.mul_one] at hm
  omega

/-! ### Reading -/

private theorem toNat_place (b : UInt8) (p : Nat) (h : p < 8) :
    (place b p).toNat = 256 ^ p * b.toNat := by
  have hb : b.toNat < 256 := b.toNat_lt
  have hs : 8 * p % 256 < 64 := by omega
  have hm : (8 * p % 256).toUInt64.toNat = 8 * p := by
    simp only [Nat.toUInt64_eq, UInt64.toNat_ofNat']
    omega
  simp only [place, if_pos hs]
  rw [UInt64.toNat_shiftLeft, hm, UInt8.toNat_toUInt64, Nat.shiftLeft_eq,
    Nat.mod_eq_of_lt (by omega : 8 * p < 64)]
  have hp : 2 ^ (8 * p) = 256 ^ p := by rw [pow_mul]; norm_num
  rw [hp, Nat.mul_comm, Nat.mod_eq_of_lt]
  calc 256 ^ p * b.toNat < 256 ^ p * 256 := Nat.mul_lt_mul_of_pos_left hb (by positivity)
    _ = 256 ^ (p + 1) := (pow_succ _ _).symm
    _ ≤ 256 ^ 8 := Nat.pow_le_pow_right (by decide) (by omega)
    _ = 2 ^ 64 := by norm_num

private theorem toNat_bits (v : Bytes) (p : Nat) (h : p + v.length ≤ 8) :
    (bits p v).toNat = 256 ^ p * Bytes.toNatLE v := by
  induction v generalizing p with
  | nil => simp [bits, Bytes.toNatLE]
  | cons b v ih =>
    simp only [List.length_cons] at h
    have hb : b.toNat < 256 := b.toNat_lt
    rw [bits, UInt64.toNat_or, toNat_place b p (by omega), ih (p + 1) (by omega), Bytes.toNatLE]
    have hlt : 256 ^ p * b.toNat < 2 ^ (8 * (p + 1)) := by
      calc 256 ^ p * b.toNat < 256 ^ p * 256 := Nat.mul_lt_mul_of_pos_left hb (by positivity)
        _ = 256 ^ (p + 1) := (pow_succ _ _).symm
        _ = 2 ^ (8 * (p + 1)) := by rw [pow_mul]; norm_num
    have hpow : 256 ^ (p + 1) = 2 ^ (8 * (p + 1)) := by rw [pow_mul]; norm_num
    rw [hpow, Nat.or_comm, ← Nat.two_pow_add_eq_or_of_lt hlt, ← hpow, pow_succ]
    ring

private theorem and_high_bit (t : UInt8) : t &&& 0x80 = 0 ↔ t.toNat < 128 := by
  have ht : t.toNat < 256 := t.toNat_lt
  rw [← UInt8.toNat_inj, UInt8.toNat_and]
  have h128 : (0x80 : UInt8).toNat = 2 ^ 7 := rfl
  rw [h128, Nat.and_two_pow, Nat.testBit_eq_decide_div_mod_eq]
  by_cases h : t.toNat < 128
  · simp [h, Nat.div_eq_of_lt h]
  · have hd : t.toNat / 128 % 2 = 1 := by omega
    simp [h, hd]

private theorem and_not_two_pow {k m : Nat} (hk : k < 64) (hm : m < 2 ^ k) :
    (2 ^ k + m) &&& (2 ^ 64 - 1 - 2 ^ k) = m := by
  have hn : 2 ^ 64 - 1 - 2 ^ k = 2 ^ 64 - (2 ^ k + 1) := by omega
  have hlt : 2 ^ k < 2 ^ 64 := Nat.pow_lt_pow_right (by decide) hk
  have hor : 2 ^ k + m = 2 ^ k * 1 ||| m := by
    rw [← Nat.two_pow_add_eq_or_of_lt hm, Nat.mul_one]
  apply Nat.eq_of_testBit_eq
  intro i
  rw [hn, hor, Nat.mul_one, Nat.testBit_and, Nat.testBit_or, Nat.testBit_two_pow_sub_succ hlt,
    Nat.testBit_two_pow]
  by_cases hi : i < k
  · have h1 : i < 64 := by omega
    have h2 : k ≠ i := by omega
    simp [h1, h2]
  · have hz : m.testBit i = false :=
      Nat.testBit_eq_false_of_lt
        (Nat.lt_of_lt_of_le hm (Nat.pow_le_pow_right (by decide) (by omega)))
    by_cases he : k = i
    · simp [hz, he]
    · simp [hz, he]

private theorem toInt_toInt64 (w : UInt64) (h : w.toNat < 2 ^ 63) : w.toInt64.toInt = w.toNat := by
  have hw : w.toInt64.toInt = (w.toNat : Int).bmod (2 ^ 64) := by
    rw [UInt64.toInt64]
    exact BitVec.toInt_eq_toNat_bmod w.toBitVec
  rw [hw, Int.bmod_def]
  split <;> omega

/-- Reading up to eight bytes gives their value. -/
theorem toInt_decode (v : Bytes) (h : v.length ≤ 8) : (decode v).toInt = value v := by
  rcases List.eq_nil_or_concat' v with rfl | ⟨l, t, rfl⟩
  · rfl
  · rw [List.length_append, List.length_singleton] at h
    have ht : t.toNat < 256 := t.toNat_lt
    have hl := toNatLE_lt l
    have hbits : (bits 0 (l ++ [t])).toNat = Bytes.toNatLE l + 256 ^ l.length * t.toNat := by
      rw [toNat_bits _ 0 (by simpa using h), toNatLE_append]
      simp [Bytes.toNatLE]
    have hp : 256 ^ l.length = 2 ^ (8 * l.length) := by rw [pow_mul]; norm_num
    have hk : 2 ^ (8 * l.length + 7) = 256 ^ l.length * 128 := by rw [pow_add, ← hp]; norm_num
    have hle : 2 ^ (8 * l.length + 7) ≤ 2 ^ 63 := Nat.pow_le_pow_right (by decide) (by omega)
    have hm : Bytes.toNatLE l + 256 ^ l.length * (t.toNat % 128) < 2 ^ (8 * l.length + 7) := by
      have hs : t.toNat % 128 + 1 ≤ 128 := by omega
      have := Nat.mul_le_mul_left (256 ^ l.length) hs
      rw [Nat.mul_add, Nat.mul_one] at this
      omega
    rw [value, isNegative_concat, magnitude_concat, decode, List.getLast?_concat]
    dsimp only
    by_cases hs : t.toNat < 128
    · rw [if_pos ((and_high_bit t).mpr hs), if_neg (by simpa using hs)]
      rw [Nat.mod_eq_of_lt hs] at hm ⊢
      rw [toInt_toInt64 _ (by omega), hbits]
    · rw [if_neg (fun he => hs ((and_high_bit t).mp he)), if_pos (by simpa using hs)]
      have hd : t.toNat = 128 + t.toNat % 128 := by omega
      have hw : (bits 0 (l ++ [t]) &&& ~~~ place 0x80 ((l ++ [t]).length - 1)).toNat =
          Bytes.toNatLE l + 256 ^ l.length * (t.toNat % 128) := by
        rw [UInt64.toNat_and, UInt64.toNat_not, hbits, List.length_append, List.length_singleton,
          Nat.add_sub_cancel, toNat_place _ _ (by omega)]
        have h128 : (0x80 : UInt8).toNat = 128 := rfl
        have hs : Bytes.toNatLE l + 256 ^ l.length * t.toNat = 2 ^ (8 * l.length + 7) +
            (Bytes.toNatLE l + 256 ^ l.length * (t.toNat % 128)) := by
          rw [hk]
          conv_lhs => rw [hd, Nat.mul_add]
          omega
        rw [h128, ← hk, hs]
        exact and_not_two_pow (by omega) hm
      rw [Int64.toInt_neg, toInt_toInt64 _ (by omega), hw, Int.bmod_def]
      split <;> omega

/-- A pushed value is a number exactly if it has at most four bytes. -/
theorem read?_eq (v : Bytes) : read? v = if v.length ≤ 4 then some (value v) else none := by
  unfold read? parse maxLen
  by_cases h : v.length ≤ 4
  · rw [if_neg (by omega), if_neg (by simp), if_pos h, toInt_decode v (by omega)]
    rfl
  · rw [if_pos (by omega), if_neg h]
    rfl

/-- A value is read strictly exactly if it has at most four bytes and is in shortest form. -/
theorem parse_strict_iff (v : Bytes) (n : Int) :
    parse v true maxLen = .ok n ↔ v.length ≤ 4 ∧ isMinimal v = true ∧ n = value v := by
  unfold parse maxLen
  by_cases h : v.length ≤ 4
  · rw [if_neg (by omega), toInt_decode v (by omega)]
    cases isMinimal v with
    | false => simp
    | true => simp [h, eq_comm]
  · rw [if_pos (by omega)]
    exact ⟨nofun, fun k => absurd k.1 h⟩

/-! ### Shortest forms -/

private theorem and_low_bits (t : UInt8) : (t &&& 0x7F != 0) = decide (0 < t.toNat % 128) := by
  have h127 : (0x7F : UInt8).toNat = 2 ^ 7 - 1 := rfl
  have hand : (t &&& 0x7F).toNat = t.toNat % 128 := by
    rw [UInt8.toNat_and, h127, Nat.and_two_pow_sub_one_eq_mod]
  rw [Bool.eq_iff_iff, bne_iff_ne, decide_eq_true_iff, ne_eq, ← UInt8.toNat_inj, hand]
  exact Nat.pos_iff_ne_zero.symm

private theorem and_high_bit_ne (t : UInt8) : (t &&& 0x80 != 0) = decide (128 ≤ t.toNat) := by
  rw [Bool.eq_iff_iff, bne_iff_ne, ne_eq, and_high_bit, decide_eq_true_iff, Nat.not_lt]

/-- A byte string is in shortest form exactly if its magnitude needs all of its bytes. -/
theorem isMinimal_iff (v : Bytes) (h : v ≠ []) :
    isMinimal v = true ↔ 256 ^ (v.length - 1) ≤ 2 * magnitude v := by
  obtain ⟨l, t, rfl⟩ := List.eq_nil_or_concat' v |>.resolve_left h
  rcases List.eq_nil_or_concat' l with rfl | ⟨m, u, rfl⟩
  · simp only [isMinimal, List.nil_append, List.reverse_singleton, magnitude, and_low_bits,
      decide_eq_true_iff, List.length_singleton]
    omega
  · have hr : (m ++ [u] ++ [t]).reverse = t :: u :: m.reverse := by simp
    have hu : u.toNat < 256 := u.toNat_lt
    have hm := toNatLE_lt m
    have hle : Bytes.toNatLE (m ++ [u]) = Bytes.toNatLE m + 256 ^ m.length * u.toNat := by
      rw [toNatLE_append]
      simp [Bytes.toNatLE]
    have hlen : (m ++ [u] ++ [t]).length - 1 = m.length + 1 := by simp
    have hp : 256 ^ (m.length + 1) = 256 ^ m.length * 256 := pow_succ _ _
    rw [isMinimal, hr, magnitude_concat, hle, hlen, hp]
    simp only [and_low_bits, and_high_bit_ne, Bool.or_eq_true, decide_eq_true_iff,
      List.length_append, List.length_singleton, hp]
    generalize 256 ^ m.length = q at hm ⊢
    constructor
    · rintro (ht | hu)
      · have := Nat.mul_le_mul_left (q * 256) ht
        omega
      · have := Nat.mul_le_mul_left q hu
        omega
    · intro hq
      by_contra hno
      rw [not_or, Nat.not_lt, Nat.not_le, Nat.le_zero] at hno
      have hle := Nat.mul_le_mul_left q (Nat.succ_le_of_lt hno.2)
      rw [Nat.mul_succ] at hle
      rw [hno.1, Nat.mul_zero] at hq
      omega

private theorem eq_of_length_of_value {v w : Bytes} (hl : v.length = w.length)
    (hm : magnitude v = magnitude w) (hs : isNegative v = isNegative w) : v = w := by
  rcases List.eq_nil_or_concat' v with rfl | ⟨l, t, rfl⟩
  · exact (List.length_eq_zero_iff.mp hl.symm).symm
  · have hw : w ≠ [] := by
      rintro rfl
      simp at hl
    obtain ⟨m, u, rfl⟩ := List.eq_nil_or_concat' w |>.resolve_left hw
    have hlm : l.length = m.length := by simpa using hl
    have ht : t.toNat < 256 := t.toNat_lt
    have hu : u.toNat < 256 := u.toNat_lt
    have hl := toNatLE_lt l
    have hm' := toNatLE_lt m
    rw [magnitude_concat, magnitude_concat, hlm] at hm
    rw [hlm] at hl
    rw [isNegative_concat, isNegative_concat, decide_eq_decide] at hs
    generalize hq : 256 ^ m.length = q at hm hl hm'
    have hdiv : ∀ a b : Nat, a < q → (a + q * b) / q = b ∧ (a + q * b) % q = a := by
      intro a b ha
      rw [Nat.add_mul_div_left _ _ (by omega), Nat.div_eq_of_lt ha, Nat.add_mul_mod_self_left,
        Nat.mod_eq_of_lt ha]
      exact ⟨Nat.zero_add b, rfl⟩
    have h1 := hdiv _ (t.toNat % 128) hl
    have h2 := hdiv _ (u.toNat % 128) hm'
    rw [hm] at h1
    have hlow : t.toNat % 128 = u.toNat % 128 := h1.1.symm.trans h2.1
    have htu : t = u := UInt8.toNat_inj.mp (by omega)
    have hlist : l = m := toNatLE_inj hlm (h1.2.symm.trans h2.2)
    rw [htu, hlist]

/-- Two shortest forms of one number are the same. -/
theorem eq_of_isMinimal {v w : Bytes} (hv : isMinimal v = true) (hw : isMinimal w = true)
    (h : value v = value w) : v = w := by
  have hzero : ∀ x : Bytes, isMinimal x = true → x ≠ [] → 0 < magnitude x := by
    intro x hx hne
    have hq : 0 < 256 ^ (x.length - 1) := by positivity
    have := (isMinimal_iff x hne).mp hx
    omega
  have hmag : magnitude v = magnitude w := by
    unfold value at h
    split at h <;> split at h <;> omega
  have hnil : v = [] ↔ w = [] := by
    constructor <;> rintro rfl
    · by_contra hne
      have := hzero w hw hne
      simp [magnitude] at hmag
      omega
    · by_contra hne
      have := hzero v hv hne
      simp [magnitude] at hmag
      omega
  by_cases hne : v = []
  · rw [hne, hnil.mp hne]
  · have hne' : w ≠ [] := fun he => hne (hnil.mpr he)
    have hpos := hzero v hv hne
    have hlen : v.length = w.length := by
      have h1 := (isMinimal_iff v hne).mp hv
      have h2 := (isMinimal_iff w hne').mp hw
      have h3 := two_mul_magnitude_lt v hne
      have h4 := two_mul_magnitude_lt w hne'
      have h5 := Nat.pow_lt_pow_iff_right (by decide : 1 < 256) |>.mp
        (Nat.lt_of_le_of_lt (hmag ▸ h1) h4)
      have h6 := Nat.pow_lt_pow_iff_right (by decide : 1 < 256) |>.mp
        (Nat.lt_of_le_of_lt (hmag ▸ h2) h3)
      omega
    refine eq_of_length_of_value hlen hmag ?_
    unfold value at h
    cases hs : isNegative v <;> cases ht : isNegative w <;> simp [hs, ht] at h ⊢ <;> omega

/-! ### Writing -/

private theorem or_high_bit (t : UInt8) (h : t.toNat < 128) :
    (t ||| 0x80).toNat = 128 + t.toNat := by
  have h128 : (0x80 : UInt8).toNat = 2 ^ 7 * 1 := rfl
  rw [UInt8.toNat_or, h128, Nat.or_comm, ← Nat.two_pow_add_eq_or_of_lt h]

private theorem toNat_or_signByte (t : UInt8) (s : Bool) (h : t.toNat < 128) :
    (t ||| signByte s).toNat = t.toNat + if s then 128 else 0 := by
  cases s
  · simp [signByte]
  · rw [signByte, if_pos rfl, or_high_bit t h, if_pos rfl, Nat.add_comm]

private theorem withSign_digits (s : Bool) (n : Nat) (h : n ≠ 0) :
    magnitude (withSign s (digits n)) = n ∧ isNegative (withSign s (digits n)) = s ∧
      isMinimal (withSign s (digits n)) = true := by
  obtain ⟨l, t, hd⟩ := List.eq_nil_or_concat' (digits n) |>.resolve_left (digits_ne_nil h)
  have hval : Bytes.toNatLE l + 256 ^ l.length * t.toNat = n := by
    rw [← toNatLE_digits n, hd, toNatLE_append]
    simp [Bytes.toNatLE]
  have htop : 0 < t.toNat := by
    have := getLast_digits_pos n h
    simpa only [hd, List.getLast_concat] using this
  have ht : t.toNat < 256 := t.toNat_lt
  unfold withSign
  rw [hd, List.getLast?_concat]
  dsimp only
  rw [List.dropLast_concat]
  by_cases hs : t.toNat < 128
  · rw [if_pos ((and_high_bit t).mpr hs)]
    have hor := toNat_or_signByte t s hs
    have hlow : (t ||| signByte s).toNat % 128 = t.toNat := by
      rw [hor]
      split <;> omega
    have hmag : magnitude (l ++ [t ||| signByte s]) = n := by rw [magnitude_concat, hlow, hval]
    refine ⟨hmag, ?_, ?_⟩
    · rw [isNegative_concat, hor]
      cases s
      · simp only [Bool.false_eq_true, if_false, decide_eq_false_iff_not]
        omega
      · simp
    · rw [isMinimal_iff _ (by simp), hmag, ← hval]
      have := Nat.mul_le_mul_left (256 ^ l.length) htop
      simp
      omega
  · rw [if_neg (fun he => hs ((and_high_bit t).mp he))]
    have hsign : (signByte s).toNat % 128 = 0 := by cases s <;> rfl
    have hle : Bytes.toNatLE (l ++ [t]) = n := by rw [← hd, toNatLE_digits]
    have hmag : magnitude (l ++ [t] ++ [signByte s]) = n := by
      rw [magnitude_concat, hsign, Nat.mul_zero, Nat.add_zero, hle]
    refine ⟨hmag, ?_, ?_⟩
    · rw [isNegative_concat]
      cases s <;> rfl
    · rw [isMinimal_iff _ (by simp), hmag, ← hval]
      have := Nat.mul_le_mul_left (256 ^ l.length) (Nat.not_lt.mp hs)
      simp [pow_succ]
      omega

/-- Writing a number gives a form with that value. -/
theorem value_ofInt (n : Int) : value (ofInt n) = n := by
  unfold value ofInt
  by_cases h : n.natAbs = 0
  · have hd : digits n.natAbs = [] := by rw [digits, if_pos h]
    rw [hd]
    simp [withSign, isNegative, magnitude]
    omega
  · obtain ⟨hm, hs, -⟩ := withSign_digits (n < 0) n.natAbs h
    rw [hm, hs]
    by_cases hn : n < 0
    · rw [if_pos (by simpa using hn)]
      omega
    · rw [if_neg (by simpa using hn)]
      omega

/-- Writing a number gives its shortest form. -/
theorem isMinimal_ofInt (n : Int) : isMinimal (ofInt n) = true := by
  unfold ofInt
  by_cases h : n.natAbs = 0
  · have hd : digits n.natAbs = [] := by rw [digits, if_pos h]
    rw [hd]
    rfl
  · exact (withSign_digits (n < 0) n.natAbs h).2.2

/-- A shortest form is what its value is written as. -/
theorem ofInt_value {v : Bytes} (h : isMinimal v = true) : ofInt (value v) = v :=
  eq_of_isMinimal (isMinimal_ofInt _) h (value_ofInt _)

/-- The number of bytes that a number is written in. -/
theorem length_ofInt_le (n : Int) (k : Nat) (h : 2 * n.natAbs < 256 ^ k) :
    (ofInt n).length ≤ k := by
  by_cases hne : ofInt n = []
  · simp [hne]
  · have h1 := (isMinimal_iff _ hne).mp (isMinimal_ofInt n)
    have hm : magnitude (ofInt n) = n.natAbs := by
      have := value_ofInt n
      unfold value at this
      split at this <;> omega
    rw [hm] at h1
    have h2 := Nat.pow_lt_pow_iff_right (by decide : 1 < 256) |>.mp (Nat.lt_of_le_of_lt h1 h)
    omega

/-- A number whose magnitude has at most 31 bits is read back. -/
theorem read?_ofInt (n : Int) (h : n.natAbs < 2 ^ 31) : read? (ofInt n) = some n := by
  rw [read?_eq, if_pos (length_ofInt_le n 4 (by omega)), value_ofInt]

end NamedStack.ScriptNum
