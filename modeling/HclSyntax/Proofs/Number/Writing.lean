import HclSyntax.Proofs.Number.Grammar

namespace HclSyntax

namespace Numeral

def minus (negative : Bool) : List Char := if negative then ['-'] else []

/-- A numeral without a plus and with a small `e`. -/
def written (m : Numeral) : List Char :=
  minus m.negative ++ (m.whole ++ ((if m.fraction = [] then [] else '.' :: m.fraction) ++
    if m.exponent = [] then [] else 'e' :: (minus m.exponentNegative ++ m.exponent)))

/-- Digits where the grammar wants them, and no zero before other whole digits. -/
structure Neat (m : Numeral) : Prop where
  whole : IsRun m.whole
  fraction : ∀ c ∈ m.fraction, c.isDigit = true
  exponent : ∀ c ∈ m.exponent, c.isDigit = true
  sign : m.exponent = [] → m.exponentNegative = false
  lead : m.whole.head? = some '0' → m.whole = ['0']

variable {m k : Numeral} {cs ds : List Char}

theorem signText_minus (negative : Bool) : SignText negative (minus negative) := by
  cases negative with
  | false => exact .none
  | true => exact .minus

theorem Neat.hasText (h : m.Neat) : m.HasText m.written := by
  refine .parts (signText_minus _) h.whole ?_ ?_
  · split
    · rename_i hf
      rw [hf]
      exact .none
    · rename_i hf
      exact .point ⟨hf, h.fraction⟩
  · split
    · rename_i he
      rw [he, h.sign he]
      exact .none
    · rename_i he
      exact .power (.inl rfl) (signText_minus _) ⟨he, h.exponent⟩

theorem HasText.unique (hm : m.HasText cs) (hk : k.HasText cs) : m = k :=
  Option.some.inj ((read?_text hm).symm.trans (read?_text hk))

theorem valueOf_append_zeros (ds : List Char) (zeros : ℕ) :
    valueOf (ds ++ List.replicate zeros '0') = valueOf ds * 10 ^ zeros := by
  rw [valueOf, Nat.ofDigitChars_append, Nat.ofDigitChars_replicate_zero, Nat.mul_comm, valueOf]

theorem valueOf_zeros_append (zeros : ℕ) (ds : List Char) :
    valueOf (List.replicate zeros '0' ++ ds) = valueOf ds := by
  rw [valueOf, Nat.ofDigitChars_append, Nat.ofDigitChars_replicate_zero, Nat.mul_zero, valueOf]

theorem isRun_toDigits (n : ℕ) : IsRun (Nat.toDigits 10 n) :=
  ⟨Nat.toDigits_ne_nil, fun _ hc => Nat.isDigit_of_mem_toDigits (by decide) (by decide) hc⟩

theorem valueOf_toDigits (n : ℕ) : valueOf (Nat.toDigits 10 n) = n := Nat.ofDigitChars_ten_toDigits

end Numeral

namespace Number

open Numeral

/-- What a layout makes of digits, by the place of the point. -/
inductive LaidOut (negative : Bool) (digits : List Char) (exponent : ℤ) : Numeral → Prop
  | whole : 0 ≤ exponent → digits.length + exponent ≤ longestInteger →
      LaidOut negative digits exponent
        ⟨negative, digits ++ List.replicate exponent.toNat '0', [], false, []⟩
  | inside : exponent < 0 → 1 ≤ digits.length + exponent →
      LaidOut negative digits exponent
        ⟨negative, digits.take (digits.length + exponent).toNat,
          digits.drop (digits.length + exponent).toNat, false, []⟩
  | before : -mostLeadingZeros ≤ digits.length + exponent → digits.length + exponent ≤ 0 →
      LaidOut negative digits exponent
        ⟨negative, ['0'], List.replicate (-(digits.length + exponent)).toNat '0' ++ digits, false,
          []⟩
  | scientific : 0 ≤ exponent ∧ longestInteger < digits.length + exponent ∨
        digits.length + exponent < -mostLeadingZeros →
      LaidOut negative digits exponent
        ⟨negative, digits.take 1, digits.drop 1, decide (digits.length + exponent - 1 < 0),
          Nat.toDigits 10 (digits.length + exponent - 1).natAbs⟩

variable {negative : Bool} {ds : List Char} {e : ℤ} {m : Numeral}

/-- The four layouts cover every place of the point. -/
theorem exists_laidOut (negative : Bool) (hd : ds ≠ []) (e : ℤ) :
    ∃ m, LaidOut negative ds e m ∧ minus negative ++ layout ds e = m.written := by
  have hpos : 0 < ds.length := List.length_pos_iff.mpr hd
  simp only [layout, Bool.and_eq_true, decide_eq_true_eq]
  split
  · rename_i h
    exact ⟨_, .whole h.1 h.2, by simp [written]⟩
  split
  · rename_i h
    have hdrop : ds.drop (ds.length + e).toNat ≠ [] := by
      rw [ne_eq, List.drop_eq_nil_iff]
      omega
    exact ⟨_, .inside h.1 h.2, by simp [written, hdrop]⟩
  split
  · rename_i h
    exact ⟨_, .before h.1 h.2, by simp [written, hd]⟩
  · refine ⟨_, .scientific ?_, ?_⟩
    · simp only [longestInteger, mostLeadingZeros] at *
      omega
    · simp [written, scientific, exponentText, minus, Nat.toDigits_ne_nil]

/-- Only zero begins with the digit zero, and it is written in full. -/
theorem LaidOut.neat (h : LaidOut negative ds e m) (hd : IsRun ds)
    (hz : ds.head? = some '0' → ds = ['0'] ∧ e = 0) : m.Neat := by
  have hzeros : ∀ zeros : ℕ, ∀ c ∈ List.replicate zeros '0', c.isDigit = true := by
    intro zeros c hc
    rw [List.eq_of_mem_replicate hc]
    rfl
  cases h with
  | whole =>
    refine ⟨⟨by simp [hd.1], ?_⟩, by simp, by simp, by simp, fun hlead => ?_⟩
    · exact List.forall_mem_append.mpr ⟨hd.2, hzeros _⟩
    · rw [List.head?_append_of_ne_nil _ hd.1] at hlead
      obtain ⟨rfl, rfl⟩ := hz hlead
      rfl
  | inside he hp =>
    have hne : ds.take (ds.length + e).toNat ≠ [] := by
      simp only [ne_eq, List.take_eq_nil_iff, hd.1, or_false]
      omega
    refine ⟨⟨hne, fun c hc => hd.2 c (List.mem_of_mem_take hc)⟩,
      fun c hc => hd.2 c (List.mem_of_mem_drop hc), by simp, by simp, fun hlead => ?_⟩
    -- a number with a fraction is not zero
    rw [List.head?_take, if_neg (by omega)] at hlead
    have := (hz hlead).2
    omega
  | before =>
    refine ⟨by simp [IsRun], ?_, by simp, by simp, fun _ => rfl⟩
    exact List.forall_mem_append.mpr ⟨hzeros _, hd.2⟩
  | scientific =>
    have hexp := isRun_toDigits (ds.length + e - 1).natAbs
    obtain ⟨c, cs, rfl, hc⟩ := hd.exists_cons
    refine ⟨⟨by simp, by simp [hc]⟩, fun c hc => hd.2 c (List.mem_of_mem_drop hc), hexp.2,
      fun hnil => absurd hnil hexp.1, fun hlead => ?_⟩
    simpa using hlead

theorem writtenExponent_toDigits (negative : Bool) (whole fraction : List Char) (power : ℤ) :
    writtenExponent ⟨negative, whole, fraction, decide (power < 0), Nat.toDigits 10 power.natAbs⟩ =
      power := by
  simp only [writtenExponent, valueOf_toDigits, decide_eq_true_eq]
  split <;> omega

/-- In each layout the written exponent and the digits behind the point make up for each other. -/
theorem LaidOut.value (h : LaidOut negative ds e m) (hd : ds ≠ []) :
    m.value = scaled negative (valueOf ds) e := by
  have hpos : 0 < ds.length := List.length_pos_iff.mpr hd
  have hzero : valueOf [] = 0 := rfl
  rw [value_eq]
  cases h with
  | whole he =>
    have hc : Numeral.coefficient ⟨negative, ds ++ List.replicate e.toNat '0', [], false, []⟩ =
        valueOf ds * 10 ^ e.toNat := by
      rw [Numeral.coefficient, List.append_nil, valueOf_append_zeros]
    rw [hc, scaled_mul_pow]
    congr 1
    simp [writtenExponent, hzero, he]
  | inside he hp =>
    rw [Numeral.coefficient, List.take_append_drop]
    congr 1
    simp only [writtenExponent, hzero, List.length_drop, Bool.false_eq_true, if_false]
    omega
  | before hlo hp =>
    -- the zero before the point is one more in front of the digits
    rw [Numeral.coefficient, ← List.append_assoc, ← List.replicate_one,
      List.replicate_append_replicate, valueOf_zeros_append]
    congr 1
    simp only [writtenExponent, hzero, List.length_append, List.length_replicate,
      Bool.false_eq_true, if_false]
    omega
  | scientific h =>
    rw [Numeral.coefficient, List.take_append_drop, writtenExponent_toDigits]
    congr 1
    rw [List.length_drop]
    omega

/-- A list in two at a place that it has. -/
def cut? (place : ℤ) (ds : List Char) : Option (List Char × List Char) :=
  if 0 ≤ place ∧ place ≤ ds.length then some (ds.splitAt place.toNat) else none

/-- `layout` where every place is checked at which the digits are cut. -/
def layout? (ds : List Char) (e : ℤ) : Option (List Char) :=
  let point := ds.length + e
  if 0 ≤ e ∧ point ≤ longestInteger then some (ds ++ List.replicate e.toNat '0')
  else if e < 0 ∧ 1 ≤ point then
    (cut? point ds).map fun (whole, fraction) => whole ++ '.' :: fraction
  else if -mostLeadingZeros ≤ point ∧ point ≤ 0 then
    some ('0' :: '.' :: List.replicate (-point).toNat '0' ++ ds)
  else
    (cut? 1 ds).map fun (first, fraction) =>
      first ++ (if fraction.isEmpty then [] else '.' :: fraction) ++ 'e' :: exponentText (point - 1)

theorem cut?_eq {place : ℤ} (h : 0 ≤ place ∧ place ≤ ds.length) :
    cut? place ds = some (ds.take place.toNat, ds.drop place.toNat) := by
  rw [cut?, if_pos h, List.splitAt_eq]

theorem layout?_eq (hd : ds ≠ []) (e : ℤ) : layout? ds e = some (layout ds e) := by
  have hpos : 0 < ds.length := List.length_pos_iff.mpr hd
  simp only [layout?, layout, Bool.and_eq_true, decide_eq_true_eq]
  split
  · rfl
  split
  · rw [cut?_eq (by omega)]
    rfl
  split
  · rfl
  · rw [cut?_eq (by omega)]
    rfl

/-- The text of a number is a numeral in one of the layouts, and denotes the number. -/
theorem exists_numeral (n : Number) :
    ∃ m : Numeral, LaidOut n.negative (Nat.toDigits 10 n.coefficient) n.exponent m ∧ m.Neat ∧
      n.toText.toList = m.written ∧ m.value = n.value := by
  have hrun := isRun_toDigits n.coefficient
  obtain ⟨m, hm, htext⟩ := exists_laidOut n.negative hrun.1 n.exponent
  have hzero : (Nat.toDigits 10 n.coefficient).head? = some '0' →
      Nat.toDigits 10 n.coefficient = ['0'] ∧ n.exponent = 0 := by
    intro hhead
    have hc : n.coefficient = 0 := by
      by_contra hc
      exact head?_toDigits hc hhead
    rw [eq_zero_of_coefficient hc]
    exact ⟨rfl, rfl⟩
  refine ⟨m, hm, hm.neat hrun hzero, ?_, ?_⟩
  · rw [toText, String.toList_ofList, ← htext]
    rfl
  · rw [hm.value hrun.1, valueOf_toDigits]
    rfl

theorem toText_injective {n k : Number} (h : n.toText = k.toText) : n = k := by
  obtain ⟨m, -, hm, hn, hmv⟩ := exists_numeral n
  obtain ⟨m', -, hm', hk, hmv'⟩ := exists_numeral k
  have hwritten : m.written = m'.written := by rw [← hn, ← hk, h]
  obtain rfl : m = m' := hm.hasText.unique (hwritten ▸ hm'.hasText)
  exact eq_of_value_eq (hmv.symm.trans hmv')

end Number

/-- A number is written as a numeral that denotes it, without a needless zero in front; the digits
are cut only where they can be; and no other number has the same text. -/
theorem writing_is_exact (n : Number) :
    (∃ m : Numeral, m.Neat ∧ n.toText.toList = m.written ∧ m.value = n.value) ∧
    Number.layout? (Nat.toDigits 10 n.coefficient) n.exponent =
      some (Number.layout (Nat.toDigits 10 n.coefficient) n.exponent) ∧
    ∀ k : Number, k.toText = n.toText ↔ k = n := by
  obtain ⟨m, -, hm, htext, hv⟩ := Number.exists_numeral n
  refine ⟨⟨m, hm, htext, hv⟩, Number.layout?_eq Nat.toDigits_ne_nil n.exponent, fun k => ?_⟩
  exact ⟨Number.toText_injective, congrArg Number.toText⟩

end HclSyntax
