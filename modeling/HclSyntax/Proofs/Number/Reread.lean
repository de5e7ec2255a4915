import HclSyntax.Proofs.Number.Reading
import HclSyntax.Proofs.Number.Writing

namespace HclSyntax

namespace Number

/-- An integer whose digits behind the first are more than an exponent may count. -/
def Vast (n : Number) : Prop := (∃ z : ℤ, n.value = z) ∧ 10 ^ (exponentLimit + 1 : ℤ) ≤ |n.value|

variable {n : Number} {s : String}

theorem vast_iff : n.Vast ↔ 0 ≤ n.exponent ∧
    exponentLimit + 1 < (Nat.toDigits 10 n.coefficient).length + n.exponent := by
  by_cases h : n.coefficient = 0
  · have hzero := eq_zero_of_coefficient h
    have hpow : ¬ (10 : ℚ) ^ (exponentLimit + 1 : ℤ) ≤ 0 := not_le.mpr (by positivity)
    refine iff_of_false (fun hv => hpow ?_) fun hv => ?_
    · simpa [hzero] using hv.2
    · have hlen := hv.2
      rw [hzero] at hlen
      change (exponentLimit : ℤ) + 1 < 1 + 0 at hlen
      omega
  · rw [Vast, value_int_iff h, zpow_le_abs_value h]

/-- Only the scientific layout writes an exponent, the greater one only of an integer. -/
theorem LaidOut.exponent_le_iff {negative : Bool} {ds : List Char} {e : ℤ} {m : Numeral}
    (h : LaidOut negative ds e m) (hd : ds ≠ []) (he : e.natAbs ≤ exponentLimit) :
    m.writtenExponent.natAbs ≤ exponentLimit ↔ ¬ (0 ≤ e ∧ exponentLimit + 1 < ds.length + e) := by
  have hpos : 0 < ds.length := List.length_pos_iff.mpr hd
  have hzero : Numeral.valueOf [] = 0 := rfl
  cases h with
  | whole _ hp =>
    simp only [Numeral.writtenExponent, hzero, longestInteger, exponentLimit] at *
    omega
  | inside he hp =>
    simp only [Numeral.writtenExponent, hzero] at *
    omega
  | before _ hp =>
    simp only [Numeral.writtenExponent, hzero] at *
    omega
  | scientific h =>
    rw [writtenExponent_toDigits]
    simp only [longestInteger, mostLeadingZeros, exponentLimit] at *
    omega

theorem exponent_of_parse (h : parse s = .ok n) : n.exponent.natAbs ≤ exponentLimit := by
  rcases parse_cases s with ⟨-, h'⟩ | ⟨-, -, h'⟩ | ⟨m, hm, -⟩
  · rw [h] at h'
    cases h'
  · rw [h] at h'
    cases h'
  · obtain ⟨hr, rfl⟩ := (parse_eq_ok hm).mp h
    exact ((Numeral.inRange_iff hm).mp hr).2

end Number

/-- The text of a number that was read is read as the same number, but that of a vast integer is out
of range. -/
theorem rereading_is_exact (s : String) (n : Number) (h : Number.parse s = .ok n) :
    (Number.parse n.toText = .ok n ↔ ¬ n.Vast) ∧
    (Number.parse n.toText = .error .outOfRange ↔ n.Vast) := by
  obtain ⟨m, hlaid, hneat, htext, hvalue⟩ := Number.exists_numeral n
  have hm : m.HasText n.toText.toList := htext ▸ hneat.hasText
  obtain rfl : m.toNumber = n := Number.eq_of_value_eq (m.value_toNumber.trans hvalue)
  have he := Number.exponent_of_parse h
  have hrange : m.InRange ↔ ¬ m.toNumber.Vast := by
    rw [Numeral.inRange_iff hm, Number.vast_iff,
      ← hlaid.exponent_le_iff Nat.toDigits_ne_nil he, and_iff_left he]
  rw [Number.parse_eq_ok hm, hrange, and_iff_left rfl, Number.parse_text hm]
  refine ⟨Iff.rfl, ?_⟩
  by_cases hv : m.toNumber.Vast
  · exact iff_of_true (Number.ofNumeral_of_not_inRange hm (by rwa [hrange, not_not])) hv
  · refine iff_of_false ?_ hv
    rw [Number.ofNumeral_of_inRange hm (hrange.mpr hv)]
    simp

/-- The greatest exponent that the text of twelve may have. -/
theorem longestPower_is_reread :
    let n : Number := ⟨false, 12, 2147483646, by decide⟩
    Number.parse "12e2147483646" = .ok n ∧ ¬ n.Vast ∧ Number.parse n.toText = .ok n := by
  intro n
  have hparse : Number.parse "12e2147483646" = .ok n := by decide +kernel
  have hsmall : ¬ n.Vast := by
    rw [Number.vast_iff]
    decide
  exact ⟨hparse, hsmall, (rereading_is_exact _ n hparse).1.mpr hsmall⟩

/-- One more, and the text has an exponent that is out of range. -/
theorem longerPower_is_not_reread :
    ∃ n, Number.parse "12e2147483647" = .ok n ∧ n.toText = "1.2e2147483648" ∧
      Number.parse n.toText = .error .outOfRange := by
  refine ⟨⟨false, 12, 2147483647, by decide⟩, ?_, ?_, ?_⟩ <;> decide +kernel

end HclSyntax
