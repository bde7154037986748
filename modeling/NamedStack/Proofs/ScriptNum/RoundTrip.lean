import NamedStack.Instr
import NamedStack.Proofs.ScriptNum

/-!
# Numbers of 64 bits come back

Writing a number works on a word of 64 bits with sign: the word is negated if it is negative, its
low byte is taken while what is left is positive, and the sign goes on top of the last byte. This
gives the shortest form of every number but the least one, whose negation is negative again and
leaves no byte to put the sign on.

Every other number is written in at most eight bytes and read back from them. A byte string of at
most eight bytes is in shortest form exactly if it is what its number is written as, and is longer
than that otherwise.
-/

namespace NamedStack.ScriptNum

/-! ### Writing in words -/

private theorem toInt_shiftRight_byte (w : Int64) : (w >>> 8).toInt = w.toInt / 256 := by
  have hshift : (w >>> 8).toInt = (w.toBitVec.sshiftRight 8).toInt := rfl
  rw [hshift, BitVec.toInt_sshiftRight, Int.shiftRight_eq_div_pow]
  rfl

private theorem pos_iff_toInt (w : Int64) : 0 < w ↔ 0 < w.toInt := Int64.lt_iff_toInt_lt

/-- The low bytes of a word, the lowest first, while what is left of the word is positive. -/
def wordDigits (w : Int64) : Bytes :=
  if 0 < w then w.toUInt64.toUInt8 :: wordDigits (w >>> 8) else []
termination_by w.toInt.toNat
decreasing_by
  next h =>
  rw [pos_iff_toInt] at h
  rw [toInt_shiftRight_byte]
  omega

/-- The shortest form of a word. -/
def ofWord (w : Int64) : Except Fault Bytes :=
  if w = 0 then .ok []
  else
    let negative : Bool := w < 0
    let ds := wordDigits (if negative then -w else w)
    match ds.getLast? with
    | none => .error .outOfRange
    | some top =>
      if top &&& 0x80 ≠ 0 then .ok (ds ++ [signByte negative])
      else if negative then .ok (ds.dropLast ++ [top ||| 0x80])
      else .ok ds

private theorem lowByte_eq (w : Int64) (h : 0 ≤ w.toInt) :
    w.toUInt64.toUInt8 = UInt8.ofNat w.toInt.toNat := by
  have hle : 0 ≤ w := Int64.le_iff_toInt_le.mpr h
  rw [← UInt8.toNat_inj, UInt64.toNat_toUInt8, Int64.toNat_toUInt64_of_le hle, UInt8.toNat_ofNat']
  rfl

/-- The bytes of a word that is not negative are the digits of its number. -/
theorem wordDigits_eq (w : Int64) (h : 0 ≤ w.toInt) : wordDigits w = digits w.toInt.toNat := by
  induction hn : w.toInt.toNat using Nat.strongRecOn generalizing w with
  | ind n ih =>
    subst hn
    rw [wordDigits, digits]
    by_cases hpos : 0 < w.toInt
    · have hshift := toInt_shiftRight_byte w
      have hdiv : (w >>> 8).toInt.toNat = w.toInt.toNat / 256 := by omega
      rw [if_pos ((pos_iff_toInt w).mpr hpos), if_neg (by omega), lowByte_eq w h,
        ih _ (by omega) (w >>> 8) (by omega) hdiv]
    · rw [if_neg (fun hw => hpos ((pos_iff_toInt w).mp hw)), if_pos (by omega)]

private theorem withSign_concat (s : Bool) (l : Bytes) (top : UInt8) :
    withSign s (l ++ [top]) =
      if top &&& 0x80 ≠ 0 then l ++ [top] ++ [signByte s]
      else if s then l ++ [top ||| 0x80] else l ++ [top] := by
  rw [withSign, List.getLast?_concat]
  dsimp only
  rw [List.dropLast_concat]
  by_cases h : top &&& 0x80 = 0
  · rw [if_pos h, if_neg (not_not.mpr h)]
    cases s
    · simp [signByte]
    · rfl
  · rw [if_neg h, if_pos h]

/-- Writing a word gives the shortest form of its number, or fails where there is none. -/
theorem ofWord_eq (w : Int64) : ofWord w = encode w.toInt := by
  have hlow := w.le_toInt
  have hneg := Int64.toInt_neg w
  have hw : w < 0 ↔ w.toInt < 0 := Int64.lt_iff_toInt_lt
  rw [ofWord, encode]
  by_cases hzero : w = 0
  · have hd : digits (0 : Int).natAbs = [] := by rw [Int.natAbs_zero, digits, if_pos rfl]
    rw [if_pos hzero, hzero, Int64.toInt_zero, if_neg (by decide), ofInt, hd]
    rfl
  have hne : w.toInt ≠ 0 := fun h => hzero (Int64.toInt_inj.mp h)
  rw [if_neg hzero]
  by_cases hleast : w.toInt = -9223372036854775808
  · have hmin : -w = w := by
      rw [← Int64.toInt_inj, hneg, hleast]
      rfl
    have hnone : wordDigits w = [] := by
      rw [wordDigits, if_neg]
      rw [pos_iff_toInt]
      omega
    simp [hw, hleast, hmin, hnone]
  · have hmag : wordDigits (if decide (w < 0) then -w else w) = digits w.toInt.natAbs := by
      have hnat : (-w.toInt).bmod (2 ^ 64) = -w.toInt := by
        have := w.toInt_lt
        rw [Int.bmod_def]
        split <;> omega
      by_cases hs : w.toInt < 0
      · rw [if_pos (by simpa [hw] using hs), wordDigits_eq _ (by omega), hneg, hnat]
        congr 1
        omega
      · rw [if_neg (by simpa [hw] using hs), wordDigits_eq _ (by omega)]
        congr 1
        omega
    have hnil : digits w.toInt.natAbs ≠ [] := by
      rw [digits, if_neg (by omega)]
      exact List.cons_ne_nil _ _
    obtain ⟨l, top, hd⟩ := List.eq_nil_or_concat' (digits w.toInt.natAbs) |>.resolve_left hnil
    rw [if_neg hleast, ofInt, hd, withSign_concat]
    dsimp only
    rw [hmag, hd, List.getLast?_concat]
    dsimp only
    rw [List.dropLast_concat, decide_eq_decide.mpr hw]
    split
    · rfl
    · split <;> rfl

/-! ### Reading back -/

private theorem natAbs_value (v : Bytes) : (value v).natAbs = magnitude v := by
  unfold value
  split <;> omega

private theorem magnitude_ofInt (n : Int) : magnitude (ofInt n) = n.natAbs := by
  rw [← natAbs_value, value_ofInt]

variable {n : Int}

/-- A number whose magnitude has at most 63 bits is written, in at most eight bytes, and read back
from its shortest form. -/
theorem encode_roundTrip (h : n.natAbs < 2 ^ 63) :
    ∃ v, encode n = .ok v ∧ v.length ≤ 8 ∧ isMinimal v = true ∧ parse v true 8 = .ok n := by
  have hlen : (ofInt n).length ≤ 8 := length_ofInt_le n 8 (by omega)
  have hmin := isMinimal_ofInt n
  refine ⟨ofInt n, if_neg (by omega), hlen, hmin, ?_⟩
  rw [parse, if_neg (by omega), hmin, if_neg (by simp), toInt_decode _ hlen, value_ofInt]

/-- What is not in shortest form is longer than what its number is written as. -/
theorem length_ofInt_value_lt {v : Bytes} (h : isMinimal v = false) :
    (ofInt (value v)).length < v.length := by
  have hne : v ≠ [] := by
    rintro rfl
    cases h
  have hpos : 0 < v.length := List.length_pos_iff.mpr hne
  have hsmall : ¬ 256 ^ (v.length - 1) ≤ 2 * magnitude v := by
    rw [← isMinimal_iff v hne, h]
    exact Bool.false_ne_true
  have := length_ofInt_le (value v) (v.length - 1) (by rw [natAbs_value]; omega)
  omega

/-- A byte string of at most eight bytes is in shortest form exactly if its number is written so. -/
theorem encode_value {v : Bytes} (h : v.length ≤ 8) :
    ∃ w, encode (value v) = .ok w ∧ (isMinimal v = true ↔ w = v) ∧
      (isMinimal v = false → w.length < v.length) := by
  have hmag : 2 * magnitude v < 256 ^ 8 := by
    by_cases hne : v = []
    · subst hne
      decide
    · exact Nat.lt_of_lt_of_le (two_mul_magnitude_lt v hne) (Nat.pow_le_pow_right (by decide) h)
  have habs := natAbs_value v
  refine ⟨ofInt (value v), if_neg (by omega), ⟨ofInt_value, fun hv => ?_⟩, length_ofInt_value_lt⟩
  rw [← hv]
  exact isMinimal_ofInt _

private theorem four_lt_length_ofInt (h : 2 ^ 31 ≤ n.natAbs) : 4 < (ofInt n).length := by
  have hmag := magnitude_ofInt n
  have hne : ofInt n ≠ [] := by
    intro hnil
    rw [hnil] at hmag
    simp only [magnitude] at hmag
    omega
  have hlt := two_mul_magnitude_lt _ hne
  rw [hmag] at hlt
  have hpow : 256 ^ 4 < 256 ^ (ofInt n).length := by omega
  exact (Nat.pow_lt_pow_iff_right (by decide)).mp hpow

/-- The number in what pushes a number, if it is short enough to be taken for one. -/
theorem toInt?_ofInt (h : n.natAbs < 2 ^ 63) :
    ∃ i, Instr.ofInt n = .ok i ∧ i.toInt? = if n.natAbs < 2 ^ 31 then some n else none := by
  unfold Instr.ofInt
  cases hs : SmallInt.ofInt? n with
  | some s =>
    unfold SmallInt.ofInt? at hs
    split at hs
    · cases hs
      refine ⟨_, rfl, ?_⟩
      rw [if_pos (by omega)]
      rfl
    · cases hs
  | none =>
    have henc : encode n = .ok (ofInt n) := if_neg (by omega)
    refine ⟨.push (ofInt n), by rw [henc]; rfl, ?_⟩
    rw [Instr.toInt?]
    split
    · next hn => exact read?_ofInt n hn
    · next hn =>
      have := four_lt_length_ofInt (Nat.not_lt.mp hn)
      rw [read?_eq, if_neg (by omega)]

/-- Numbers of 64 bits and byte strings of at most eight bytes: a number other than the least one
comes back from its shortest form, and from the instruction that pushes it if that has at most four
bytes; a byte string is in shortest form exactly if its number is written so, and is longer
otherwise. -/
theorem numbers_come_back :
    (∀ w : Int64, w ≠ Int64.minValue →
      (∃ v, ofWord w = .ok v ∧ encode w.toInt = .ok v ∧ v.length ≤ 8 ∧ isMinimal v = true ∧
        parse v true 8 = .ok w.toInt) ∧
      ∃ i, Instr.ofInt w.toInt = .ok i ∧
        i.toInt? = if w.toInt.natAbs < 2 ^ 31 then some w.toInt else none) ∧
    ∀ v : Bytes, v.length ≤ 8 →
      ∃ n u, parse v false 8 = .ok n ∧ encode n = .ok u ∧ (isMinimal v = true ↔ u = v) ∧
        (isMinimal v = false → u.length < v.length) := by
  constructor
  · intro w hw
    have hlow := w.le_toInt
    have hhigh := w.toInt_lt
    have hleast : w.toInt ≠ -2 ^ 63 := by
      rw [← Int64.toInt_minValue, ne_eq, Int64.toInt_inj]
      exact hw
    have habs : w.toInt.natAbs < 2 ^ 63 := by omega
    obtain ⟨v, hv, hlen, hmin, hback⟩ := encode_roundTrip habs
    exact ⟨⟨v, (ofWord_eq w).trans hv, hv, hlen, hmin, hback⟩, toInt?_ofInt habs⟩
  · intro v hv
    obtain ⟨u, hu, hiff, hlt⟩ := encode_value hv
    refine ⟨value v, u, ?_, hu, hiff, hlt⟩
    rw [parse, if_neg (by omega), if_neg (by simp), toInt_decode v hv]

/-- The sign of -32768 needs a byte of its own, and -1 needs less than the three bytes `010080`. -/
theorem numbers_come_back_carried_and_padded :
    (∃ v, ofWord (-32768) = .ok v ∧ v.length ≤ 8 ∧ parse v true 8 = .ok (-32768)) ∧
      (∃ i, Instr.ofInt (-32768) = .ok i ∧ i.toInt? = some (-32768)) ∧
      encode (-32768) = .ok [0x00, 0x80, 0x80] ∧ ∃ u, encode (-1) = .ok u ∧ u.length < 3 := by
  have hleast : (-32768 : Int64) ≠ Int64.minValue := by decide
  obtain ⟨⟨v, hv, -, hlen, -, hback⟩, hpush⟩ := numbers_come_back.1 (-32768) hleast
  have hcarried : isMinimal [0x00, 0x80, 0x80] = true := by decide
  have hpadded : isMinimal [0x01, 0x00, 0x80] = false := by decide
  obtain ⟨n, u, hn, hu, hiff, -⟩ := numbers_come_back.2 [0x00, 0x80, 0x80] (by decide)
  obtain ⟨k, t, hk, ht, -, hlt⟩ := numbers_come_back.2 [0x01, 0x00, 0x80] (by decide)
  have hn' : parse [0x00, 0x80, 0x80] false 8 = .ok (-32768) := by decide
  have hk' : parse [0x01, 0x00, 0x80] false 8 = .ok (-1) := by decide
  rw [hn'] at hn
  rw [hk'] at hk
  cases hn
  cases hk
  rw [hiff.mp hcarried] at hu
  exact ⟨⟨v, hv, hlen, hback⟩, hpush, hu, t, ht, hlt hpadded⟩

end NamedStack.ScriptNum
