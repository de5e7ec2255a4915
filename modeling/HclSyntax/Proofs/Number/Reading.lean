import HclSyntax.Proofs.Number.Grammar

namespace HclSyntax

open Number

namespace Numeral

/-- Neither the exponent as it is written nor that of the normal form is too great. Zero has no
exponent in normal form. -/
def InRange (m : Numeral) : Prop :=
  m.writtenExponent.natAbs ≤ exponentLimit ∧
    ((∀ c ∈ m.whole ++ m.fraction, c = '0') ∨
      ∃ (c : ℕ) (e : ℤ), |m.value| = c * 10 ^ e ∧ c % 10 ≠ 0 ∧ e.natAbs ≤ exponentLimit)

/-- The number that a numeral denotes. -/
def toNumber (m : Numeral) : Number :=
  ofScaled m.negative m.coefficient (m.writtenExponent - m.fraction.length)

variable {m : Numeral} {cs : List Char}

theorem value_toNumber (m : Numeral) : m.toNumber.value = m.value := by
  rw [toNumber, value_ofScaled, value_eq]

theorem HasText.isDigit (h : m.HasText cs) : ∀ c ∈ m.whole ++ m.fraction, c.isDigit = true := by
  obtain ⟨-, hw, hf, -⟩ := h
  intro c hc
  rcases List.mem_append.mp hc with hc | hc
  · exact hw.2 c hc
  · generalize m.fraction = ds at hf hc
    cases hf with
    | point hrun => exact hrun.2 c hc
    | none => cases hc

theorem coefficient_toNumber : m.toNumber.coefficient = 0 ↔ m.coefficient = 0 := by
  rw [← value_eq_zero, value_toNumber, value_eq, ← abs_eq_zero, abs_scaled]
  simp [zpow_ne_zero]

theorem inRange_iff (h : m.HasText cs) : m.InRange ↔
    m.writtenExponent.natAbs ≤ exponentLimit ∧ m.toNumber.exponent.natAbs ≤ exponentLimit := by
  refine and_congr_right fun _ => ?_
  have hzeros := valueOf_eq_zero h.isDigit
  change m.coefficient = 0 ↔ _ at hzeros
  rw [← hzeros, ← coefficient_toNumber]
  by_cases hc : m.toNumber.coefficient = 0
  · simp [eq_zero_of_coefficient hc, zero]
  · have hnormal := mod_ten_ne_zero hc
    have habs := abs_value m.toNumber
    rw [value_toNumber] at habs
    constructor
    · rintro (hz | ⟨c, e, hv, hmod, hle⟩)
      · exact absurd hz hc
      · obtain ⟨-, rfl⟩ := normal_form_unique hmod hnormal (hv.symm.trans habs)
        exact hle
    · exact fun hle => .inr ⟨_, _, habs, hnormal, hle⟩

end Numeral

namespace Number

variable {s : String} {m : Numeral} {cs : List Char}

theorem le_ofDigitChars (k : ℕ) (ds : List Char) : k ≤ Nat.ofDigitChars 10 ds k := by
  rw [Nat.ofDigitChars_eq_ofDigitChars_zero]
  exact (Nat.le_mul_of_pos_left k (by positivity)).trans (Nat.le_add_right _ _)

/-- The word overflows at some digit only if it cannot hold the whole: digits never take from it. -/
theorem appendDigits?_eq {k : ℕ} (hk : k < wordBound) (ds : List Char) :
    appendDigits? k ds =
      if Nat.ofDigitChars 10 ds k < wordBound then some (Nat.ofDigitChars 10 ds k) else none := by
  induction ds generalizing k with
  | nil => simp [appendDigits?, hk]
  | cons c ds ih =>
    rw [appendDigits?, Nat.ofDigitChars_cons]
    have hle := le_ofDigitChars (10 * k + (c.toNat - '0'.toNat)) ds
    generalize c.toNat - '0'.toNat = d at hle ⊢
    rcases Nat.lt_or_ge (10 * k) wordBound with hshift | hshift
    · rw [below?_of_lt hshift, Option.bind_eq_bind, Option.bind_some]
      rcases Nat.lt_or_ge (10 * k + d) wordBound with hadd | hadd
      · rw [below?_of_lt hadd]
        exact ih hadd
      · rw [below?_of_le hadd]
        exact (if_neg (Nat.not_lt.mpr (hadd.trans hle))).symm
    · rw [below?_of_le hshift]
      exact (if_neg (Nat.not_lt.mpr (hshift.trans ((Nat.le_add_right _ d).trans hle)))).symm

theorem exponent?_eq (m : Numeral) : exponent? m =
    if m.writtenExponent.natAbs ≤ exponentLimit then some m.writtenExponent else none := by
  have habs : m.writtenExponent.natAbs = Numeral.valueOf m.exponent := by
    unfold Numeral.writtenExponent
    split <;> omega
  rw [exponent?, appendDigits?_eq (by decide), habs, Numeral.writtenExponent, Numeral.valueOf]
  generalize Nat.ofDigitChars 10 m.exponent 0 = k
  rcases Nat.lt_or_ge exponentLimit k with hlt | hle
  · rw [if_neg (Nat.not_le.mpr hlt)]
    -- too great for the limit, whether or not a word holds it
    rcases Nat.lt_or_ge k wordBound with hword | hword
    · rw [if_pos hword]
      exact if_pos hlt
    · rw [if_neg (Nat.not_lt.mpr hword)]
  · rw [if_pos (hle.trans_lt (by decide)), if_pos hle]
    exact if_neg (Nat.not_lt.mpr hle)

theorem ofNumeral_of_inRange (h : m.HasText cs) (hr : m.InRange) :
    ofNumeral m = .ok m.toNumber := by
  obtain ⟨hw, he⟩ := (Numeral.inRange_iff h).mp hr
  rw [ofNumeral, exponent?_eq, if_pos hw]
  exact if_neg (Nat.not_lt.mpr he)

theorem ofNumeral_of_not_inRange (h : m.HasText cs) (hr : ¬ m.InRange) :
    ofNumeral m = .error .outOfRange := by
  rw [Numeral.inRange_iff h] at hr
  rw [ofNumeral, exponent?_eq]
  by_cases hw : m.writtenExponent.natAbs ≤ exponentLimit
  · rw [if_pos hw]
    exact if_pos (show exponentLimit < m.toNumber.exponent.natAbs by omega)
  · rw [if_neg hw]

theorem parse_text (h : m.HasText s.toList) : parse s = ofNumeral m := by
  have hne : s ≠ "" := by
    rintro rfl
    exact h.ne_nil rfl
  simp [parse, hne, Numeral.read?_text h]

theorem parse_cases (s : String) :
    s = "" ∧ parse s = .error .empty ∨
    s ≠ "" ∧ (¬ ∃ m : Numeral, m.HasText s.toList) ∧ parse s = .error .invalid ∨
    ∃ m : Numeral, m.HasText s.toList ∧
      (parse s = .ok m.toNumber ∨ parse s = .error .outOfRange) := by
  by_cases hs : s = ""
  · exact .inl ⟨hs, by simp [parse, hs]⟩
  right
  by_cases hm : ∃ m : Numeral, m.HasText s.toList
  · right
    obtain ⟨m, hm⟩ := hm
    refine ⟨m, hm, ?_⟩
    rw [parse_text hm]
    by_cases hr : m.InRange
    · exact .inl (ofNumeral_of_inRange hm hr)
    · exact .inr (ofNumeral_of_not_inRange hm hr)
  · left
    have hnone : Numeral.read? s.toList = none :=
      Option.eq_none_iff_forall_ne_some.mpr fun m h => hm ⟨m, Numeral.read?_sound h⟩
    exact ⟨hs, hm, by simp [parse, hs, hnone]⟩

theorem parse_eq_empty : parse s = .error .empty ↔ s = "" := by
  rcases parse_cases s with ⟨hs, h⟩ | ⟨hs, -, h⟩ | ⟨m, hm, h⟩
  · exact iff_of_true h hs
  · exact iff_of_false (by simp [h]) hs
  · refine iff_of_false (by rcases h with h | h <;> simp [h]) ?_
    rintro rfl
    exact hm.ne_nil rfl

theorem parse_eq_invalid :
    parse s = .error .invalid ↔ s ≠ "" ∧ ¬ ∃ m : Numeral, m.HasText s.toList := by
  rcases parse_cases s with ⟨hs, h⟩ | ⟨hs, hm, h⟩ | ⟨m, hm, h⟩
  · exact iff_of_false (by simp [h]) fun hc => hc.1 hs
  · exact iff_of_true h ⟨hs, hm⟩
  · exact iff_of_false (by rcases h with h | h <;> simp [h]) fun hc => hc.2 ⟨m, hm⟩

theorem parse_eq_ok {n : Number} (h : m.HasText s.toList) :
    parse s = .ok n ↔ m.InRange ∧ m.toNumber = n := by
  rw [parse_text h]
  by_cases hr : m.InRange
  · simp [ofNumeral_of_inRange h hr, hr]
  · simp [ofNumeral_of_not_inRange h hr, hr]

theorem value_of_parse {n : Number} (h : m.HasText s.toList) (hn : parse s = .ok n) :
    n.value = m.value := by
  rw [← ((parse_eq_ok h).mp hn).2, m.value_toNumber]

end Number

/-- Each text is empty, or no numeral, or a numeral out of range, or read as the rational that it
denotes; and numbers that were read are equal where their texts denote the same rational. -/
theorem reading_is_exact (s : String) :
    (parse s = .error .empty ↔ s = "") ∧
    (parse s = .error .invalid ↔ s ≠ "" ∧ ¬ ∃ m : Numeral, m.HasText s.toList) ∧
    ∀ m : Numeral, m.HasText s.toList →
      (m.InRange → ∃ n, parse s = .ok n ∧ n.value = m.value ∧ n.Normalized) ∧
      (¬ m.InRange → parse s = .error .outOfRange) ∧
      ∀ (t : String) (k : Numeral) (a b : Number), k.HasText t.toList →
        parse s = .ok a → parse t = .ok b → (a = b ↔ m.value = k.value) := by
  refine ⟨parse_eq_empty, parse_eq_invalid, fun m hm => ⟨fun hr => ?_, fun hr => ?_, ?_⟩⟩
  · refine ⟨m.toNumber, ?_, m.value_toNumber, m.toNumber.normalized⟩
    rw [parse_text hm, ofNumeral_of_inRange hm hr]
  · rw [parse_text hm, ofNumeral_of_not_inRange hm hr]
  · intro t k a b hk ha hb
    rw [← value_of_parse hm ha, ← value_of_parse hk hb]
    exact ⟨congrArg value, eq_of_value_eq⟩

/-- An exponent too great is out of range even where it makes no difference to the value. -/
example : parse "0e2147483648" = .error .outOfRange := by decide

/-- Minus 1234 with zeros on both sides, a point, and a sign before the exponent. -/
def paddedMinus : Numeral := ⟨true, ['0', '0', '1', '2'], ['3', '4', '0'], false, ['0', '2']⟩

theorem paddedMinus_value : paddedMinus.value = -1234 := by
  rw [Numeral.value_eq]
  change scaled true 12340 (2 - 3) = _
  norm_num [scaled]

theorem paddedMinus_is_plain :
    let plain : Numeral := ⟨true, ['1', '2', '3', '4'], [], false, []⟩
    paddedMinus.HasText "-0012.340e+02".toList ∧ paddedMinus.InRange ∧
      plain.HasText "-1234".toList ∧ plain.InRange ∧
      ∃ n, parse "-0012.340e+02" = .ok n ∧ parse "-1234" = .ok n ∧ n.value = -1234 := by
  intro plain
  have hm : paddedMinus.HasText "-0012.340e+02".toList :=
    .parts (m := paddedMinus) .minus (by decide) (.point (by decide))
      (.power (.inl rfl) .plus (by decide))
  have hk : plain.HasText "-1234".toList :=
    .parts (m := plain) .minus (by decide) .none .none
  have hplain : plain.value = -1234 := by
    rw [Numeral.value_eq]
    change scaled true 1234 (0 - 0) = _
    norm_num [scaled]
  have hmr : paddedMinus.InRange :=
    ⟨by decide, .inr ⟨1234, 0, by norm_num [paddedMinus_value], by decide, by decide⟩⟩
  have hkr : plain.InRange :=
    ⟨by decide, .inr ⟨1234, 0, by norm_num [hplain], by decide, by decide⟩⟩
  obtain ⟨hread, -, hequal⟩ := (reading_is_exact "-0012.340e+02").2.2 paddedMinus hm
  obtain ⟨a, ha, hav, -⟩ := hread hmr
  obtain ⟨b, hb, -⟩ := ((reading_is_exact "-1234").2.2 plain hk).1 hkr
  obtain rfl : a = b :=
    (hequal "-1234" plain a b hk ha hb).mpr (paddedMinus_value.trans hplain.symm)
  exact ⟨hm, hmr, hk, hkr, a, ha, hb, hav.trans paddedMinus_value⟩

end HclSyntax
