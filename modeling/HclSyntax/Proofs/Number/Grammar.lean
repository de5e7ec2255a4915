import Mathlib.Data.List.TakeWhile
import Mathlib.Tactic.FieldSimp
import HclSyntax.Number.Numeral
import HclSyntax.Proofs.Number.Value

namespace HclSyntax

namespace Numeral

/-- One digit or more. -/
def IsRun (ds : List Char) : Prop := ds ≠ [] ∧ ∀ c ∈ ds, c.isDigit = true

instance : DecidablePred IsRun := fun ds =>
  decidable_of_iff ((!ds.isEmpty && ds.all Char.isDigit) = true) (by simp [IsRun])

/-- The texts of a sign; true for a minus. -/
inductive SignText : Bool → List Char → Prop
  | minus : SignText true ['-']
  | plus : SignText false ['+']
  | none : SignText false []

/-- The texts of the digits after the point. -/
inductive FractionText : List Char → List Char → Prop
  | point {ds : List Char} : IsRun ds → FractionText ds ('.' :: ds)
  | none : FractionText [] []

/-- The texts of an exponent, given as its sign and its digits. -/
inductive ExponentText : Bool → List Char → List Char → Prop
  | power {marker : Char} {negative : Bool} {s ds : List Char} : marker = 'e' ∨ marker = 'E' →
      SignText negative s → IsRun ds → ExponentText negative ds (marker :: (s ++ ds))
  | none : ExponentText false [] []

/-- The texts of a numeral. -/
inductive HasText (m : Numeral) : List Char → Prop
  | parts {s f e : List Char} : SignText m.negative s → IsRun m.whole →
      FractionText m.fraction f → ExponentText m.exponentNegative m.exponent e →
      HasText m (s ++ (m.whole ++ (f ++ e)))

variable {m n : Numeral} {negative : Bool} {cs ds rest s f e : List Char}

theorem digits?_sound (h : digits? cs = some (ds, rest)) : IsRun ds ∧ cs = ds ++ rest := by
  unfold digits? at h
  split at h
  · cases h
  · rename_i hne
    obtain ⟨rfl, rfl⟩ : cs.takeWhile Char.isDigit = ds ∧ cs.dropWhile Char.isDigit = rest := by
      simpa using h
    exact ⟨⟨hne, fun c hc => List.mem_takeWhile_imp hc⟩, List.takeWhile_append_dropWhile.symm⟩

theorem sign_sound (cs : List Char) : ∃ s, SignText (sign cs).1 s ∧ cs = s ++ (sign cs).2 := by
  unfold sign
  split
  · exact ⟨_, .minus, rfl⟩
  · exact ⟨_, .plus, rfl⟩
  · exact ⟨_, .none, rfl⟩

theorem fraction?_sound (h : fraction? cs = some (ds, rest)) :
    ∃ f, FractionText ds f ∧ cs = f ++ rest := by
  unfold fraction? at h
  split at h
  · obtain ⟨hrun, rfl⟩ := digits?_sound h
    exact ⟨_, .point hrun, rfl⟩
  · obtain ⟨rfl, rfl⟩ : [] = ds ∧ cs = rest := by simpa using h
    exact ⟨_, .none, rfl⟩

theorem power_sound {marker : Char} (hm : marker = 'e' ∨ marker = 'E')
    (h : (digits? (sign cs).2).map ((sign cs).1, ·) = some (negative, ds, rest)) :
    ∃ e, ExponentText negative ds e ∧ marker :: cs = e ++ rest := by
  obtain ⟨⟨_, _⟩, hd, hp⟩ := Option.map_eq_some_iff.mp h
  cases hp
  obtain ⟨s, hs, hcs⟩ := sign_sound cs
  obtain ⟨hrun, hrest⟩ := digits?_sound hd
  refine ⟨_, .power hm hs hrun, ?_⟩
  rw [List.cons_append, List.append_assoc, ← hrest, ← hcs]

theorem exponent?_sound (h : exponent? cs = some (negative, ds, rest)) :
    ∃ e, ExponentText negative ds e ∧ cs = e ++ rest := by
  unfold exponent? at h
  split at h
  · exact power_sound (.inl rfl) h
  · exact power_sound (.inr rfl) h
  · cases h
    exact ⟨_, .none, rfl⟩

theorem read?_sound (h : read? cs = some m) : m.HasText cs := by
  obtain ⟨s, hs, hcs⟩ := sign_sound cs
  simp only [read?, Option.bind_eq_bind, Option.bind_eq_some_iff, Prod.exists] at h
  obtain ⟨whole, r, hwhole, ds, r', hfraction, negative, es, r'', hexponent, _, hnil, hm⟩ := h
  obtain ⟨hw, hdigits⟩ := digits?_sound hwhole
  obtain ⟨f, hf, rfl⟩ := fraction?_sound hfraction
  obtain ⟨e, he, rfl⟩ := exponent?_sound hexponent
  obtain rfl : r'' = [] := by
    by_contra hne
    simp [hne] at hnil
  rw [hdigits, List.append_nil] at hcs
  cases hm
  have htext : HasText ⟨_, _, _, _, _⟩ _ := .parts hs hw hf he
  rwa [← hcs] at htext

/-- The text does not go on with a character of the kind. -/
def Stops (p : Char → Bool) (cs : List Char) : Prop := ∀ c ∈ cs.head?, p c = false

theorem Stops.takeWhile {p : Char → Bool} (h : Stops p cs) : cs.takeWhile p = [] := by
  cases cs with
  | nil => rfl
  | cons c cs => simp [h c rfl]

theorem Stops.dropWhile {p : Char → Bool} (h : Stops p cs) : cs.dropWhile p = cs := by
  cases cs with
  | nil => rfl
  | cons c cs => simp [h c rfl]

theorem IsRun.exists_cons (h : IsRun ds) : ∃ c cs, ds = c :: cs ∧ c.isDigit = true := by
  obtain ⟨c, cs, rfl⟩ := List.exists_cons_of_ne_nil h.1
  exact ⟨c, cs, rfl, h.2 c (List.mem_cons_self ..)⟩

theorem digits?_append (h : IsRun ds) (hr : Stops Char.isDigit rest) :
    digits? (ds ++ rest) = some (ds, rest) := by
  obtain ⟨c, cs, rfl, -⟩ := h.exists_cons
  have htake : (c :: cs ++ rest).takeWhile Char.isDigit = c :: cs := by
    rw [List.takeWhile_append_of_pos h.2, hr.takeWhile, List.append_nil]
  have hdrop : (c :: cs ++ rest).dropWhile Char.isDigit = rest := by
    rw [List.dropWhile_append_of_pos h.2, hr.dropWhile]
  rw [digits?, htake, hdrop]

theorem digits?_run (h : IsRun ds) : digits? ds = some (ds, []) := by
  have happend := digits?_append h (show Stops Char.isDigit [] by simp [Stops])
  rwa [List.append_nil] at happend

theorem sign_append (hs : SignText negative s) (h : IsRun ds) (rest : List Char) :
    sign (s ++ (ds ++ rest)) = (negative, ds ++ rest) := by
  cases hs with
  | minus => rfl
  | plus => rfl
  | none =>
    obtain ⟨c, cs, rfl, hc⟩ := h.exists_cons
    -- a digit is neither sign
    rw [List.nil_append, List.cons_append, sign]
    · rintro r ⟨⟩
      exact absurd hc (by decide)
    · rintro r ⟨⟩
      exact absurd hc (by decide)

theorem fraction?_append (hf : FractionText ds f) (hr : Stops Char.isDigit rest)
    (hp : Stops (· == '.') rest) : fraction? (f ++ rest) = some (ds, rest) := by
  cases hf with
  | point hrun => exact digits?_append hrun hr
  | none =>
    rw [List.nil_append, fraction?]
    rintro r rfl
    simpa using hp '.' rfl

theorem exponent?_text (h : ExponentText negative ds e) :
    exponent? e = some (negative, ds, []) := by
  cases h with
  | none => rfl
  | power hm hs hrun =>
    have hsign := sign_append hs hrun []
    rw [List.append_nil] at hsign
    rcases hm with rfl | rfl <;> simp [exponent?, hsign, digits?_run hrun]

theorem ExponentText.stops (h : ExponentText negative ds e) :
    Stops Char.isDigit e ∧ Stops (· == '.') e := by
  cases h with
  | none => simp [Stops]
  | power hm => rcases hm with rfl | rfl <;> simp [Stops]

theorem FractionText.stops (h : FractionText ds f) (hr : Stops Char.isDigit rest) :
    Stops Char.isDigit (f ++ rest) := by
  cases h with
  | none => exact hr
  | point => simp [Stops]

theorem read?_text (h : m.HasText cs) : read? cs = some m := by
  obtain ⟨hs, hw, hf, he⟩ := h
  obtain ⟨hdigit, hpoint⟩ := he.stops
  simp [read?, sign_append hs hw, digits?_append hw (hf.stops hdigit),
    fraction?_append hf hdigit hpoint, exponent?_text he]

theorem HasText.ne_nil (h : m.HasText cs) : cs ≠ [] := by
  obtain ⟨-, hw, -, -⟩ := h
  simp [hw.1]

/-- What digits are worth behind a place that counts `unit`: each place counts a tenth of the one
before it. -/
def worth (unit : ℚ) : List Char → ℚ
  | [] => 0
  | c :: ds => (c.toNat - '0'.toNat : ℕ) * (unit / 10) + worth (unit / 10) ds

/-- The exponent as it is written; zero without one. -/
def writtenExponent (m : Numeral) : ℤ :=
  if m.exponentNegative then -(valueOf m.exponent) else valueOf m.exponent

/-- The rational that a numeral denotes. The last digit before the point counts one. -/
def value (m : Numeral) : ℚ :=
  (if m.negative then -1 else 1) *
    (worth (10 ^ m.whole.length) (m.whole ++ m.fraction) * 10 ^ m.writtenExponent)

theorem valueOf_cons (c : Char) (ds : List Char) :
    valueOf (c :: ds) = 10 ^ ds.length * (c.toNat - '0'.toNat) + valueOf ds := by
  rw [valueOf, Nat.ofDigitChars_cons, Nat.ofDigitChars_eq_ofDigitChars_zero, Nat.mul_zero,
    Nat.zero_add, valueOf]

theorem worth_eq (unit : ℚ) (ds : List Char) :
    worth unit ds = valueOf ds * (unit / 10 ^ ds.length) := by
  induction ds generalizing unit with
  | nil => simp [worth, valueOf]
  | cons c ds ih =>
    rw [worth, ih, valueOf_cons, List.length_cons, pow_succ]
    push_cast
    field_simp

/-- The point is dropped by counting in units of the last digit. -/
theorem value_eq (m : Numeral) : m.value =
    Number.scaled m.negative m.coefficient (m.writtenExponent - m.fraction.length) := by
  rw [value, Number.scaled, worth_eq, List.length_append, pow_add, zpow_sub₀ (by norm_num),
    zpow_natCast, coefficient]
  field_simp

theorem valueOf_eq_zero (h : ∀ c ∈ ds, c.isDigit = true) :
    valueOf ds = 0 ↔ ∀ c ∈ ds, c = '0' := by
  induction ds with
  | nil => simp [valueOf]
  | cons c ds ih =>
    rw [List.forall_mem_cons] at h ⊢
    have hc : c.toNat - '0'.toNat = 0 ↔ c = '0' := by
      have hd : 48 ≤ c.toNat ∧ c.toNat ≤ 57 := Char.isDigit_iff_toNat.mp h.1
      rw [← Char.toNat_inj]
      change c.toNat - 48 = 0 ↔ c.toNat = 48
      omega
    rw [valueOf_cons, Nat.add_eq_zero_iff, ih h.2, Nat.mul_eq_zero, hc]
    simp

end Numeral

end HclSyntax
