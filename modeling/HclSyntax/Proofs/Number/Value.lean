import Mathlib.Algebra.Order.Field.Rat
import Mathlib.Algebra.Order.Field.Power
import Mathlib.Tactic.NormNum
import Mathlib.Tactic.Positivity
import Mathlib.Tactic.Ring
import HclSyntax.Number.Basic

namespace HclSyntax

namespace Number

/-- The rational `coefficient * 10 ^ exponent`, or its negative. -/
def scaled (negative : Bool) (coefficient : Nat) (exponent : Int) : ℚ :=
  (if negative then -1 else 1) * (coefficient * 10 ^ exponent)

/-- The rational that a number stands for. -/
def value (n : Number) : ℚ := scaled n.negative n.coefficient n.exponent

/-- The significant digits; zero has none. -/
def digits (n : Number) : List Char := if n.isZero then [] else Nat.toDigits 10 n.coefficient

/-- The digits neither begin nor end with zero, and zero is written one way only. -/
structure Normalized (n : Number) : Prop where
  first : n.digits.head? ≠ some '0'
  last : n.digits.getLast? ≠ some '0'
  zero : n.value = 0 → n.negative = false ∧ n.digits = [] ∧ n.exponent = 0

variable {c d : ℕ} {e f : ℤ} {n k : Number}

theorem abs_scaled (negative : Bool) (c : ℕ) (e : ℤ) : |scaled negative c e| = c * 10 ^ e := by
  have hpos : (0 : ℚ) ≤ c * 10 ^ e := by positivity
  cases negative <;> simp [scaled, abs_of_nonneg hpos]

theorem scaled_stripZeros (negative : Bool) (c : ℕ) (e : ℤ) :
    scaled negative (stripZeros c e).1 (stripZeros c e).2 = scaled negative c e := by
  fun_induction stripZeros c e with
  | case1 => rfl
  | case2 c e h ih =>
    have hc : c / 10 * 10 = c := by omega
    rw [ih, scaled, scaled, zpow_add_one₀ (by norm_num)]
    conv_rhs => rw [← hc, Nat.cast_mul]
    push_cast
    ring

theorem scaled_mul_pow (negative : Bool) (c zeros : ℕ) (e : ℤ) :
    scaled negative (c * 10 ^ zeros) e = scaled negative c (e + zeros) := by
  rw [scaled, scaled, zpow_add₀ (by norm_num), zpow_natCast]
  push_cast
  ring

/-- The smaller exponent goes with the greater coefficient. -/
theorem coefficient_eq_of_le (hle : e ≤ f) (h : (c : ℚ) * 10 ^ e = d * 10 ^ f) :
    c = d * 10 ^ (f - e).toNat := by
  obtain ⟨j, rfl⟩ := Int.le.dest hle
  have he : (10 : ℚ) ^ e ≠ 0 := by positivity
  rw [zpow_add₀ (by norm_num), zpow_natCast, mul_left_comm, mul_comm] at h
  have hcast : (c : ℚ) = (d * 10 ^ j : ℕ) := by
    push_cast
    exact mul_left_cancel₀ he h
  rw [show (e + j - e).toNat = j by omega]
  exact_mod_cast hcast

theorem exponent_le (hc : c % 10 ≠ 0) (h : (c : ℚ) * 10 ^ e = d * 10 ^ f) : f ≤ e := by
  by_contra hlt
  have heq := coefficient_eq_of_le (by omega) h
  -- a greater exponent on the other side puts a zero behind the coefficient
  obtain ⟨j, hj⟩ : ∃ j, (f - e).toNat = j + 1 := ⟨(f - e).toNat - 1, by omega⟩
  rw [hj, pow_succ, ← mul_assoc] at heq
  omega

theorem normal_form_unique (hc : c % 10 ≠ 0) (hd : d % 10 ≠ 0)
    (h : (c : ℚ) * 10 ^ e = d * 10 ^ f) : c = d ∧ e = f := by
  have hef : e = f := le_antisymm (exponent_le hd h.symm) (exponent_le hc h)
  refine ⟨?_, hef⟩
  simpa [hef] using coefficient_eq_of_le hef.le h

@[simp]
theorem value_zero : zero.value = 0 := by simp [value, scaled, zero]

theorem value_ofScaled (negative : Bool) (c : ℕ) (e : ℤ) :
    (ofScaled negative c e).value = scaled negative c e := by
  unfold ofScaled
  split
  · rename_i hc
    simp [hc, scaled]
  · exact scaled_stripZeros negative c e

theorem abs_value (n : Number) : |n.value| = n.coefficient * 10 ^ n.exponent :=
  abs_scaled n.negative n.coefficient n.exponent

theorem value_eq_zero : n.value = 0 ↔ n.coefficient = 0 := by
  rw [← abs_eq_zero, abs_value]
  simp [zpow_ne_zero]

theorem mod_ten_ne_zero (h : n.coefficient ≠ 0) : n.coefficient % 10 ≠ 0 := by
  simpa [IsNormal, h] using n.normal

theorem eq_zero_of_coefficient (h : n.coefficient = 0) : n = zero := by
  obtain ⟨negative, coefficient, exponent, normal⟩ := n
  obtain rfl : coefficient = 0 := h
  obtain ⟨rfl, rfl⟩ : negative = false ∧ exponent = 0 := by simpa [IsNormal] using normal
  rfl

theorem value_of_nonneg (h : 0 ≤ n.exponent) : n.value =
    (if n.negative then -1 else 1) * (n.coefficient * 10 ^ n.exponent.toNat : ℕ) := by
  rw [value, scaled]
  conv_lhs => rw [← Int.toNat_of_nonneg h, zpow_natCast]
  push_cast
  rfl

/-- The value is an integer where there is no fraction to write. -/
theorem value_int_iff (h : n.coefficient ≠ 0) : (∃ z : ℤ, n.value = z) ↔ 0 ≤ n.exponent := by
  constructor
  · rintro ⟨z, hz⟩
    have habs : (n.coefficient : ℚ) * 10 ^ n.exponent = (z.natAbs : ℕ) * 10 ^ (0 : ℤ) := by
      rw [← abs_value, hz, zpow_zero, mul_one, Nat.cast_natAbs, Int.cast_abs]
    exact exponent_le (mod_ten_ne_zero h) habs
  · intro he
    refine ⟨(if n.negative then -1 else 1) * (n.coefficient * 10 ^ n.exponent.toNat : ℕ), ?_⟩
    rw [value_of_nonneg he]
    push_cast
    rfl

theorem value_neg_iff (h : n.coefficient ≠ 0) : n.value < 0 ↔ n.negative = true := by
  have hpos : (0 : ℚ) < n.coefficient * 10 ^ n.exponent := by positivity
  unfold value scaled
  cases n.negative with
  | false => simpa using hpos.le
  | true => simpa using hpos

theorem value_eq_natCast {k : ℕ} : n.value = k ↔
    n.negative = false ∧ 0 ≤ n.exponent ∧ n.coefficient * 10 ^ n.exponent.toNat = k := by
  constructor
  · intro h
    by_cases hc : n.coefficient = 0
    · rw [eq_zero_of_coefficient hc, value_zero] at h
      obtain rfl : 0 = k := mod_cast h
      simp [eq_zero_of_coefficient hc, zero]
    · have hs : n.negative = false := by
        rw [← Bool.not_eq_true, ← value_neg_iff hc, h]
        exact not_lt.mpr k.cast_nonneg
      have he : 0 ≤ n.exponent := (value_int_iff hc).mp ⟨k, by simp [h]⟩
      rw [value_of_nonneg he, hs, if_neg Bool.false_ne_true, one_mul] at h
      exact ⟨hs, he, mod_cast h⟩
  · rintro ⟨hs, he, rfl⟩
    rw [value_of_nonneg he, hs, if_neg Bool.false_ne_true, one_mul]

/-- Numbers that stand for the same rational are the same. -/
theorem eq_of_value_eq (h : n.value = k.value) : n = k := by
  by_cases hn : n.coefficient = 0
  · have hk : k.coefficient = 0 := by rw [← value_eq_zero, ← h, value_eq_zero, hn]
    rw [eq_zero_of_coefficient hn, eq_zero_of_coefficient hk]
  · have hk : k.coefficient ≠ 0 := by rwa [ne_eq, ← value_eq_zero, ← h, value_eq_zero]
    have habs : (n.coefficient : ℚ) * 10 ^ n.exponent = k.coefficient * 10 ^ k.exponent := by
      rw [← abs_value, ← abs_value, h]
    obtain ⟨hc, he⟩ := normal_form_unique (mod_ten_ne_zero hn) (mod_ten_ne_zero hk) habs
    have hs : n.negative = k.negative := by
      rw [Bool.eq_iff_iff, ← value_neg_iff hn, ← value_neg_iff hk, h]
    obtain ⟨_, _, _, _⟩ := n
    simp_all

theorem digits_of_ne_zero (h : n.coefficient ≠ 0) : n.digits = Nat.toDigits 10 n.coefficient := by
  simp [digits, isZero, h]

theorem head?_toDigits (h : c ≠ 0) : (Nat.toDigits 10 c).head? ≠ some '0' := by
  induction c using Nat.strong_induction_on with
  | _ c ih =>
    rw [Nat.toDigits_eq_if (by decide)]
    split
    · simpa using h
    · rw [List.head?_append_of_ne_nil _ Nat.toDigits_ne_nil]
      exact ih (c / 10) (by omega) (by omega)

theorem getLast?_toDigits (c : ℕ) : (Nat.toDigits 10 c).getLast? = some (c % 10).digitChar := by
  rw [Nat.toDigits_eq_if (by decide)]
  split
  · rename_i h
    rw [Nat.mod_eq_of_lt h]
    rfl
  · exact List.getLast?_concat

theorem lt_pow_length (c : ℕ) : c < 10 ^ (Nat.toDigits 10 c).length :=
  (Nat.length_toDigits_le_iff (by decide) Nat.length_toDigits_pos).mp le_rfl

theorem pow_length_le (h : c ≠ 0) : 10 ^ ((Nat.toDigits 10 c).length - 1) ≤ c := by
  by_contra hlt
  rw [Nat.not_le] at hlt
  rcases Nat.eq_zero_or_pos ((Nat.toDigits 10 c).length - 1) with hzero | hpos
  · rw [hzero, pow_zero] at hlt
    omega
  · have hle := (Nat.length_toDigits_le_iff (by decide) hpos).mpr hlt
    omega

/-- The first digit stands for the greatest power of ten in a number. -/
theorem zpow_le_abs_value {p : ℤ} (h : n.coefficient ≠ 0) :
    10 ^ p ≤ |n.value| ↔ p < (Nat.toDigits 10 n.coefficient).length + n.exponent := by
  have hhigh : (n.coefficient : ℚ) < 10 ^ (Nat.toDigits 10 n.coefficient).length :=
    mod_cast lt_pow_length n.coefficient
  have hlow : (10 : ℚ) ^ ((Nat.toDigits 10 n.coefficient).length - 1) ≤ n.coefficient :=
    mod_cast pow_length_le h
  have hlen : 0 < (Nat.toDigits 10 n.coefficient).length := Nat.length_toDigits_pos
  have hpow : (0 : ℚ) < 10 ^ n.exponent := by positivity
  rw [abs_value]
  generalize (Nat.toDigits 10 n.coefficient).length = k at hhigh hlow hlen ⊢
  constructor
  · intro hle
    have hlt : (10 : ℚ) ^ p < 10 ^ (k + n.exponent) := by
      rw [zpow_add₀ (by norm_num), zpow_natCast]
      exact hle.trans_lt (by gcongr)
    exact (zpow_lt_zpow_iff_right₀ (by norm_num)).mp hlt
  · intro hlt
    calc (10 : ℚ) ^ p ≤ 10 ^ ((k - 1 : ℕ) + n.exponent) :=
          zpow_le_zpow_right₀ (by norm_num) (by omega)
      _ = 10 ^ (k - 1) * 10 ^ n.exponent := by rw [zpow_add₀ (by norm_num), zpow_natCast]
      _ ≤ n.coefficient * 10 ^ n.exponent := by gcongr

theorem normalized (n : Number) : n.Normalized := by
  by_cases h : n.coefficient = 0
  · rw [eq_zero_of_coefficient h]
    constructor <;> simp [digits, isZero, zero]
  · constructor
    · rw [digits_of_ne_zero h]
      exact head?_toDigits h
    · rw [digits_of_ne_zero h, getLast?_toDigits]
      simpa using mod_ten_ne_zero h
    · exact fun hzero => absurd (value_eq_zero.mp hzero) h

end Number

end HclSyntax
