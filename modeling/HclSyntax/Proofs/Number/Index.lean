import HclSyntax.Proofs.Number.Value
import HclSyntax.Number.Numeral

namespace HclSyntax

namespace Number

variable {n : Number} {k p zeros : ℕ}

/-- The product of all steps is in range only if each step is, since every zero makes it greater. -/
theorem appendZeros?_eq_some (hk : k < indexBound) :
    appendZeros? k zeros = some p ↔ k * 10 ^ zeros = p ∧ p < indexBound := by
  induction zeros generalizing k with
  | zero =>
    rw [appendZeros?, pow_zero, mul_one, Option.some.injEq]
    constructor
    · rintro rfl
      exact ⟨rfl, hk⟩
    · exact And.left
  | succ zeros ih =>
    have hmul : k * 10 ^ (zeros + 1) = 10 * k * 10 ^ zeros := by ring
    rw [appendZeros?, hmul]
    rcases Nat.lt_or_ge (10 * k) indexBound with h | h
    · rw [below?_of_lt h, Option.bind_eq_bind, Option.bind_some]
      exact ih h
    · have hle : 10 * k ≤ 10 * k * 10 ^ zeros := Nat.le_mul_of_pos_right _ (by positivity)
      rw [below?_of_le h]
      refine iff_of_false (by simp) ?_
      rintro ⟨rfl, hp⟩
      exact absurd hp (Nat.not_lt.mpr (h.trans hle))

/-- Few powers of ten are in range. -/
theorem lt_zerosBound (h : 10 ^ zeros < indexBound) : zeros < zerosBound := by
  by_contra hle
  -- the twentieth is not
  have hpow : 10 ^ 20 ≤ 10 ^ zeros :=
    Nat.pow_le_pow_right (by decide) (by simp only [zerosBound] at hle; omega)
  simp only [indexBound] at h
  omega

/-- No step is out of range if the product of the coefficient and the power is not. -/
theorem index?_eq_some : n.index? = some k ↔ (n.negative = false ∧ 0 ≤ n.exponent ∧
    n.coefficient * 10 ^ n.exponent.toNat = k) ∧ k < indexBound := by
  by_cases hc : n.coefficient = 0
  · rw [eq_zero_of_coefficient hc]
    constructor
    · rintro ⟨⟩
      decide
    · rintro ⟨⟨-, -, rfl⟩, -⟩
      rfl
  by_cases hs : n.negative = false ∧ 0 ≤ n.exponent
  · have hsteps : n.index? = (below? zerosBound n.exponent.toNat).bind fun zeros =>
        (below? indexBound n.coefficient).bind fun coefficient =>
          (appendZeros? 1 zeros).bind fun power => below? indexBound (coefficient * power) := by
      simp [index?, isZero, hc, hs.1, not_lt.mpr hs.2]
    simp only [hsteps, Option.bind_eq_some_iff, below?_eq_some, hs.1, hs.2, true_and,
      appendZeros?_eq_some (k := 1) (by decide), one_mul]
    constructor
    · rintro ⟨_, ⟨-, rfl⟩, _, ⟨-, rfl⟩, _, ⟨rfl, -⟩, hlt, rfl⟩
      exact ⟨rfl, hlt⟩
    · rintro ⟨rfl, hlt⟩
      -- neither factor is zero, so each is at most the product
      have hpower : 10 ^ n.exponent.toNat < indexBound :=
        (Nat.le_mul_of_pos_left _ (Nat.pos_of_ne_zero hc)).trans_lt hlt
      have hcoefficient : n.coefficient < indexBound :=
        (Nat.le_mul_of_pos_right _ (by positivity)).trans_lt hlt
      exact ⟨_, ⟨lt_zerosBound hpower, rfl⟩, _, ⟨hcoefficient, rfl⟩, _, ⟨rfl, hpower⟩, hlt, rfl⟩
  · have hnone : n.index? = none := by
      rw [index?, isZero, if_neg (by simpa using hc), if_pos]
      cases hn : n.negative <;> simp_all
    rw [hnone]
    exact iff_of_false (by simp) fun h => hs ⟨h.1.1, h.1.2.1⟩

theorem toDigits_mul_pow (hk : 0 < k) (zeros : ℕ) :
    Nat.toDigits 10 (k * 10 ^ zeros) = Nat.toDigits 10 k ++ List.replicate zeros '0' := by
  induction zeros with
  | zero => simp
  | succ zeros ih =>
    have hmul : k * 10 ^ (zeros + 1) = 10 * (k * 10 ^ zeros) + 0 := by ring
    rw [hmul, ← Nat.toDigits_append_toDigits (by decide) (by positivity) (by decide), ih,
      Nat.toDigits_zero, List.append_assoc, List.replicate_succ']

/-- An integer of few digits is written in full. -/
theorem layout_whole {ds : List Char} {e : ℤ} (he : 0 ≤ e) (hp : ds.length + e ≤ longestInteger) :
    layout ds e = ds ++ List.replicate e.toNat '0' := by
  simp [layout, he, hp]

theorem toText_of_index (h : n.index? = some k) : n.toText = toString k := by
  obtain ⟨⟨hs, he, hk⟩, hlt⟩ := index?_eq_some.mp h
  have hdigits : Nat.toDigits 10 k =
      Nat.toDigits 10 n.coefficient ++ List.replicate n.exponent.toNat '0' := by
    by_cases hc : n.coefficient = 0
    · have hzero := eq_zero_of_coefficient hc
      subst hzero hk
      rfl
    · rw [← hk, toDigits_mul_pow (Nat.pos_of_ne_zero hc)]
  have hlen : (Nat.toDigits 10 k).length ≤ 20 := by
    rw [Nat.length_toDigits_le_iff (by decide) (by decide)]
    exact hlt.trans (by decide)
  rw [hdigits, List.length_append, List.length_replicate] at hlen
  rw [toText, toChars, hs, layout_whole he (by simp only [longestInteger]; omega), ← hdigits,
    Nat.toString_eq_ofList_toDigits]
  rfl

end Number

/-- A number is a place where its value is one, and then its text is that of the place. -/
theorem indexing_is_exact (n : Number) (k : ℕ) :
    (n.index? = some k ↔ n.value = k ∧ k < 2 ^ 64) ∧
    (n.index? = some k → n.toText = toString k) := by
  refine ⟨?_, Number.toText_of_index⟩
  rw [Number.index?_eq_some, Number.value_eq_natCast]
  rfl

/-- The greatest place that ends in zero. -/
theorem greatestTens_is_place :
    let n : Number := ⟨false, 1844674407370955161, 1, by decide⟩
    n.index? = some 18446744073709551610 ∧ n.toText = toString 18446744073709551610 := by
  intro n
  have hindex : n.index? = some 18446744073709551610 := by decide
  exact ⟨hindex, (indexing_is_exact n _).2 hindex⟩

end HclSyntax
