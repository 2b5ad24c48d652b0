import Langsvr.JsonValues
import Mathlib.Tactic.Linarith
import Mathlib.Tactic.Positivity
import Mathlib.Tactic.Ring

/-!
# Integers as doubles

An integer that some double denotes is converted to this double. All integers below `2 ^ 53`
are of this kind, and `2 ^ 53 + 1` is not.
-/

namespace Langsvr.Json.F64

section Parts

theorem exponent_ofNat (n : ℕ) : (⟨BitVec.ofNat 64 n⟩ : F64).exponent = n / 2 ^ 52 % 2 ^ 11 := by
  simp only [exponent, BitVec.extractLsb'_toNat, BitVec.toNat_ofNat, Nat.shiftRight_eq_div_pow]
  omega

theorem mantissa_ofNat (n : ℕ) : (⟨BitVec.ofNat 64 n⟩ : F64).mantissa = n % 2 ^ 52 := by
  simp only [mantissa, BitVec.extractLsb'_toNat, BitVec.toNat_ofNat, Nat.shiftRight_eq_div_pow]
  omega

theorem sign_ofNat (n : ℕ) :
    (⟨BitVec.ofNat 64 n⟩ : F64).bits.getLsbD 63 = decide (n / 2 ^ 63 % 2 = 1) := by
  simp only [BitVec.getLsbD_ofNat, Nat.testBit_eq_decide_div_mod_eq, Nat.reduceLT, decide_true,
    Bool.true_and]

theorem toNat_bits (d : F64) : d.bits.toNat =
    (if d.bits.getLsbD 63 then 2 ^ 63 else 0) + (d.exponent * 2 ^ 52 + d.mantissa) := by
  have hd : d = ⟨BitVec.ofNat 64 d.bits.toNat⟩ := by
    rw [BitVec.ofNat_toNat, BitVec.setWidth_eq]
  have hlt := d.bits.isLt
  generalize hn : d.bits.toNat = n at hd hlt
  rw [hd, sign_ofNat, exponent_ofNat, mantissa_ofNat]
  by_cases hs : n / 2 ^ 63 % 2 = 1
  · simp only [hs, decide_true, if_true]
    omega
  · simp only [hs, decide_false, Bool.false_eq_true, if_false]
    omega

theorem mantissa_lt (d : F64) : d.mantissa < 2 ^ 52 := (d.bits.extractLsb' 0 52).isLt

end Parts

section Exact

variable {d : F64} {i : ℤ}

theorem magnitude_nonneg (d : F64) : 0 ≤ d.magnitude := by
  unfold magnitude
  split
  · positivity
  · positivity

theorem magnitude_eq_natAbs (h : d.value = some (i : ℚ)) : d.magnitude = i.natAbs := by
  unfold value at h
  have hm := d.magnitude_nonneg
  split at h
  · cases h
  · rw [Option.some.injEq] at h
    split at h
    · have hi : (i : ℚ) ≤ 0 := by linarith
      have habs : (i.natAbs : ℤ) = -i := by
        have : i ≤ 0 := by exact_mod_cast hi
        omega
      have hcast : ((i.natAbs : ℤ) : ℚ) = -(i : ℚ) := by rw [habs, Int.cast_neg]
      rw [Int.cast_natCast] at hcast
      linarith
    · have hi : (0 : ℚ) ≤ i := by linarith
      have habs : (i.natAbs : ℤ) = i := by
        have : 0 ≤ i := by exact_mod_cast hi
        omega
      have hcast : ((i.natAbs : ℤ) : ℚ) = (i : ℚ) := by rw [habs]
      rw [Int.cast_natCast] at hcast
      linarith

theorem significand_eq (h : d.value = some (i : ℚ)) (hi : i ≠ 0) :
    (2 ^ 52 + d.mantissa) * 2 ^ d.exponent = i.natAbs * 2 ^ 1075 := by
  have hmag := magnitude_eq_natAbs h
  have hpos : 1 ≤ i.natAbs := Int.natAbs_pos.mpr hi
  unfold magnitude at hmag
  split at hmag
  · have hlt : (d.mantissa : ℚ) < 2 ^ 52 := by exact_mod_cast d.mantissa_lt
    have hone : (1 : ℚ) ≤ i.natAbs := by exact_mod_cast hpos
    have hpow : (2 : ℚ) ^ 52 ≤ 2 ^ 1074 := pow_le_pow_right₀ one_le_two (by omega)
    rw [div_eq_iff (pow_ne_zero _ two_ne_zero)] at hmag
    have hbig : (2 : ℚ) ^ 1074 ≤ i.natAbs * 2 ^ 1074 :=
      le_mul_of_one_le_left (pow_nonneg zero_le_two _) hone
    rw [← hmag] at hbig
    exact absurd (hlt.trans_le hpow) (not_lt.mpr hbig)
  · rw [div_eq_iff (pow_ne_zero _ two_ne_zero)] at hmag
    apply Nat.cast_injective (R := ℚ)
    rw [Nat.cast_mul, Nat.cast_mul, Nat.cast_pow, Nat.cast_pow, Nat.cast_ofNat]
    exact hmag

/-- The two ranges of the exponent: the point stands in the significand or behind it. -/
theorem significand_cases {m c e n : ℕ} (h : c * 2 ^ e = m * 2 ^ n) :
    (∃ k, e + k = n ∧ c = m * 2 ^ k) ∨ ∃ k, 0 < k ∧ e = n + k ∧ c * 2 ^ k = m := by
  rcases Nat.lt_or_ge n e with he | he
  · obtain ⟨k, rfl⟩ := Nat.exists_eq_add_of_lt he
    refine .inr ⟨k + 1, Nat.succ_pos k, by omega, ?_⟩
    apply Nat.eq_of_mul_eq_mul_right (Nat.two_pow_pos n)
    rw [← h, Nat.mul_assoc, ← Nat.pow_add]
    congr 2
    omega
  · obtain ⟨k, rfl⟩ := Nat.exists_eq_add_of_le he
    refine .inl ⟨k, rfl, ?_⟩
    apply Nat.eq_of_mul_eq_mul_right (Nat.two_pow_pos e)
    rw [h, Nat.pow_add, Nat.mul_assoc, Nat.mul_comm (2 ^ e)]

theorem log2_eq {m k : ℕ} (h : 2 ^ k ≤ m ∧ m < 2 ^ (k + 1)) : Nat.log2 m = k := by
  have hm : m ≠ 0 := by
    have hpos := Nat.two_pow_pos k
    omega
  exact (Nat.log2_eq_iff hm).mpr h

theorem ofNatBits_eq {m e t : ℕ} (ht : t < 2 ^ 52) (hm : 0 < m)
    (h : (2 ^ 52 + t) * 2 ^ e = m * 2 ^ 1075) : ofNatBits m = e * 2 ^ 52 + t := by
  rcases significand_cases h with ⟨k, hk, hc⟩ | ⟨k, hk, rfl, hc⟩
  · have hk52 : k ≤ 52 := by
      by_contra hgt
      have hpow : 2 ^ 53 ≤ 2 ^ k := Nat.pow_le_pow_right (Nat.succ_pos 1) (by omega)
      have hle : 2 ^ k ≤ m * 2 ^ k := Nat.le_mul_of_pos_left _ hm
      omega
    have hlog : Nat.log2 m = 52 - k := by
      apply log2_eq
      have hpos := Nat.two_pow_pos k
      have hlow : 2 ^ (52 - k) * 2 ^ k = 2 ^ 52 := by rw [← Nat.pow_add, Nat.sub_add_cancel hk52]
      have hhigh : 2 ^ (52 - k + 1) * 2 ^ k = 2 ^ 53 := by
        rw [← Nat.pow_add]
        congr 1
        omega
      constructor
      · apply Nat.le_of_mul_le_mul_right _ hpos
        omega
      · apply Nat.lt_of_mul_lt_mul_right (a := 2 ^ k)
        omega
    unfold ofNatBits
    simp only [hlog, Nat.sub_le, if_true]
    rw [Nat.sub_sub_self hk52, ← hc]
    clear h hc
    omega
  · have hlog : Nat.log2 m = 52 + k := by
      apply log2_eq
      have hpos := Nat.two_pow_pos k
      rw [← hc, Nat.add_right_comm, Nat.pow_add, Nat.pow_add]
      constructor
      · exact Nat.mul_le_mul_right _ (Nat.le_add_right _ _)
      · apply Nat.mul_lt_mul_of_pos_right _ hpos
        omega
    have hs : 52 + k - 52 = k := Nat.add_sub_cancel_left 52 k
    have hdiv : m / 2 ^ k = 2 ^ 52 + t := by rw [← hc, Nat.mul_div_cancel _ (Nat.two_pow_pos k)]
    have hmod : m % 2 ^ k = 0 := by rw [← hc, Nat.mul_mod_left]
    have hhalf : 0 ≠ 2 ^ (k - 1) := (Nat.two_pow_pos _).ne
    unfold ofNatBits
    simp only [hlog, hs, hdiv, hmod, Nat.not_lt_zero, hhalf, decide_false, Bool.false_and,
      Bool.or_self, Bool.false_eq_true, if_false]
    rw [if_neg (by omega)]
    clear h hc hdiv hmod
    omega

/-- An integer that a double denotes is converted to this double. -/
theorem ofInt_of_value (h : d.value = some (i : ℚ)) (hi : i ≠ 0) : ofInt i = d := by
  have hbits : ofNatBits i.natAbs = d.exponent * 2 ^ 52 + d.mantissa :=
    ofNatBits_eq d.mantissa_lt (Int.natAbs_pos.mpr hi) (significand_eq h hi)
  have hsign : d.bits.getLsbD 63 = decide (i < 0) := by
    have hmag := magnitude_eq_natAbs h
    have hpos : (1 : ℚ) ≤ i.natAbs := by exact_mod_cast Int.natAbs_pos.mpr hi
    unfold value at h
    split at h
    · cases h
    · rw [Option.some.injEq] at h
      split at h
      · next hs =>
        have hneg : (i : ℚ) < 0 := by linarith
        have hlt : i < 0 := by exact_mod_cast hneg
        rw [hs, decide_eq_true hlt]
      · next hs =>
        have hnonneg : (0 : ℚ) < i := by linarith
        have hge : ¬ i < 0 := by
          have : 0 < i := by exact_mod_cast hnonneg
          omega
        rw [Bool.not_eq_true] at hs
        rw [hs, decide_eq_false hge]
  have hd : d = ⟨BitVec.ofNat 64 d.bits.toNat⟩ := by
    rw [BitVec.ofNat_toNat, BitVec.setWidth_eq]
  rw [ofInt, if_neg hi, hd, toNat_bits, hsign, hbits]
  simp only [decide_eq_true_eq]

theorem value_eq_of_magnitude (he : d.exponent ≠ 2047) (hm : d.magnitude = i.natAbs)
    (hs : d.bits.getLsbD 63 = decide (i < 0)) : d.value = some (i : ℚ) := by
  rw [value, if_neg he, hs, hm, Option.some.injEq]
  by_cases hi : i < 0
  · have habs : (i.natAbs : ℤ) = -i := by omega
    have hcast : ((i.natAbs : ℤ) : ℚ) = -(i : ℚ) := by rw [habs, Int.cast_neg]
    rw [Int.cast_natCast] at hcast
    rw [decide_eq_true hi, if_pos rfl, hcast, neg_neg]
  · have habs : (i.natAbs : ℤ) = i := by omega
    have hcast : ((i.natAbs : ℤ) : ℚ) = (i : ℚ) := by rw [habs]
    rw [Int.cast_natCast] at hcast
    rw [decide_eq_false hi, if_neg Bool.false_ne_true, hcast]

/-- The conversion is exact below `2 ^ 53`. -/
theorem value_ofInt (h : i.natAbs < 2 ^ 53) : (ofInt i).value = some (i : ℚ) := by
  by_cases hi : i = 0
  · rw [hi, ofInt, if_pos rfl]
    apply value_eq_of_magnitude (by decide) _ (by decide)
    have hz : (⟨0⟩ : F64).exponent = 0 ∧ (⟨0⟩ : F64).mantissa = 0 := by decide
    rw [magnitude, if_pos hz.1, hz.2, Nat.cast_zero, zero_div, Int.natAbs_zero, Nat.cast_zero]
  have hpos : i.natAbs ≠ 0 := Int.natAbs_ne_zero.mpr hi
  obtain ⟨hlow, hhigh⟩ := (Nat.log2_eq_iff hpos).mp rfl
  generalize he : Nat.log2 i.natAbs = e at hlow hhigh
  have he52 : e ≤ 52 := by
    by_contra hgt
    have hpow : 2 ^ 53 ≤ 2 ^ e := Nat.pow_le_pow_right (Nat.succ_pos 1) (by omega)
    omega
  have hbits : ofNatBits i.natAbs = (e + 1022) * 2 ^ 52 + i.natAbs * 2 ^ (52 - e) := by
    simp only [ofNatBits, he, he52, if_true]
  have hlow' : 2 ^ 52 ≤ i.natAbs * 2 ^ (52 - e) := by
    calc 2 ^ 52 = 2 ^ e * 2 ^ (52 - e) := by rw [← Nat.pow_add, Nat.add_sub_cancel' he52]
      _ ≤ i.natAbs * 2 ^ (52 - e) := Nat.mul_le_mul_right _ hlow
  have hhigh' : i.natAbs * 2 ^ (52 - e) < 2 ^ 53 := by
    calc i.natAbs * 2 ^ (52 - e) < 2 ^ (e + 1) * 2 ^ (52 - e) :=
          Nat.mul_lt_mul_of_pos_right hhigh (Nat.two_pow_pos _)
      _ = 2 ^ 53 := by
        rw [← Nat.pow_add]
        congr 1
        omega
  rw [ofInt, if_neg hi, hbits]
  generalize hc : i.natAbs * 2 ^ (52 - e) = c at hlow' hhigh'
  have hexp : ∀ b ≤ 1, (b * 2 ^ 63 + ((e + 1022) * 2 ^ 52 + c)) / 2 ^ 52 % 2 ^ 11 = e + 1023 := by
    intro b hb
    omega
  have hman : ∀ b ≤ 1, (b * 2 ^ 63 + ((e + 1022) * 2 ^ 52 + c)) % 2 ^ 52 = c - 2 ^ 52 := by
    intro b hb
    omega
  have hsign : ∀ b ≤ 1, (b * 2 ^ 63 + ((e + 1022) * 2 ^ 52 + c)) / 2 ^ 63 % 2 = b := by
    intro b hb
    omega
  obtain ⟨b, hb, hbit, hneg⟩ : ∃ b ≤ 1, (if i < 0 then 2 ^ 63 else 0) = b * 2 ^ 63 ∧
      (b = 1 ↔ i < 0) := by
    by_cases hneg : i < 0
    · exact ⟨1, Nat.le_refl _, by rw [if_pos hneg, Nat.one_mul], by simp [hneg]⟩
    · exact ⟨0, Nat.zero_le _, by rw [if_neg hneg, Nat.zero_mul], by simp [hneg]⟩
  rw [hbit]
  refine value_eq_of_magnitude ?_ ?_ ?_
  · rw [exponent_ofNat, hexp b hb]
    omega
  · have hsum : 2 ^ 52 + (c - 2 ^ 52) = c := by omega
    rw [magnitude, exponent_ofNat, mantissa_ofNat, hexp b hb, hman b hb, if_neg (by omega), hsum,
      ← hc, Nat.cast_mul, Nat.cast_pow, Nat.cast_ofNat,
      div_eq_iff (pow_ne_zero _ two_ne_zero), mul_assoc, ← pow_add]
    have hexponent : 52 - e + (e + 1023) = 1075 := by omega
    rw [hexponent]
  · rw [sign_ofNat, hsign b hb]
    simp only [hneg]

/-- No double lies between `2 ^ 53` and its successor. -/
theorem value_ne_gap (d : F64) : d.value ≠ some ((2 ^ 53 + 1 : ℤ) : ℚ) := by
  intro h
  have hsig := significand_eq h (by decide)
  have hlt := d.mantissa_lt
  have habs : (2 ^ 53 + 1 : ℤ).natAbs = 2 ^ 53 + 1 := rfl
  rw [habs] at hsig
  rcases significand_cases hsig with ⟨k, -, hc⟩ | ⟨k, hk, -, hc⟩
  · have hle : 2 ^ 53 + 1 ≤ (2 ^ 53 + 1) * 2 ^ k := Nat.le_mul_of_pos_right _ (Nat.two_pow_pos k)
    clear hsig
    omega
  · obtain ⟨j, rfl⟩ := Nat.exists_eq_add_of_le hk
    rw [Nat.pow_add, Nat.pow_one, ← Nat.mul_assoc, Nat.mul_comm _ 2, Nat.mul_assoc] at hc
    clear hsig
    omega

end Exact

end Langsvr.Json.F64
