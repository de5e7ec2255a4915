namespace HclSyntax

inductive NumberError where
  | empty
  | invalid
  | outOfRange
  deriving DecidableEq, Repr

def NumberError.message : NumberError → String
  | .empty => "a number is required, but the string is empty"
  | .invalid => "a number is required"
  | .outOfRange => "number is out of range"

/-- Zero is written one way only, and no other coefficient ends in the digit zero. -/
def IsNormal (negative : Bool) (coefficient : Nat) (exponent : Int) : Prop :=
  if coefficient = 0 then negative = false ∧ exponent = 0 else coefficient % 10 ≠ 0

instance (negative : Bool) (coefficient : Nat) (exponent : Int) :
    Decidable (IsNormal negative coefficient exponent) := by
  unfold IsNormal; infer_instance

/-- The number `coefficient * 10 ^ exponent`, or its negative. -/
structure Number where
  negative : Bool
  coefficient : Nat
  exponent : Int
  normal : IsNormal negative coefficient exponent
  deriving DecidableEq, Repr

namespace Number

def zero : Number := ⟨false, 0, 0, by decide⟩

instance : Inhabited Number := ⟨zero⟩

def isZero (n : Number) : Bool := n.coefficient == 0

/-- Moves the zeros that end a coefficient into the exponent. -/
def stripZeros (coefficient : Nat) (exponent : Int) : Nat × Int :=
  if coefficient = 0 ∨ coefficient % 10 ≠ 0 then (coefficient, exponent)
  else stripZeros (coefficient / 10) (exponent + 1)
termination_by coefficient

theorem stripZeros_normal {c : Nat} (e : Int) (h : c ≠ 0) (negative : Bool) :
    IsNormal negative (stripZeros c e).1 (stripZeros c e).2 := by
  fun_induction stripZeros c e with
  | case1 c e hc =>
    have hm : c % 10 ≠ 0 := hc.resolve_left h
    simp [IsNormal, h, hm]
  | case2 c e hc ih => exact ih (by omega)

def ofScaled (negative : Bool) (coefficient : Nat) (exponent : Int) : Number :=
  if h : coefficient = 0 then zero
  else ⟨negative, (stripZeros coefficient exponent).1, (stripZeros coefficient exponent).2,
    stripZeros_normal exponent h negative⟩

def ofNat (n : Nat) : Number := ofScaled false n 0

/-- Places of elements are below 2 ^ 64. -/
def indexBound : Nat := 0x10000000000000000

def zerosBound : Nat := 0x100000000

def below? (bound k : Nat) : Option Nat := if k < bound then some k else none

theorem below?_of_lt {bound k : Nat} (h : k < bound) : below? bound k = some k := if_pos h

theorem below?_of_le {bound k : Nat} (h : bound ≤ k) : below? bound k = none :=
  if_neg (Nat.not_lt.mpr h)

theorem below?_eq_some {bound k p : Nat} : below? bound k = some p ↔ k < bound ∧ k = p := by
  rcases Nat.lt_or_ge k bound with h | h
  · simp [below?_of_lt h, h]
  · simp [below?_of_le h, Nat.not_lt.mpr h]

/-- Puts zeros behind an index while it stays one, so that it never grows far beyond the bound. -/
def appendZeros? (k : Nat) : Nat → Option Nat
  | 0 => some k
  | zeros + 1 => do
    let next ← below? indexBound (10 * k)
    appendZeros? next zeros

/-- The number as the place of an element: its coefficient, the power of ten and their product must
all be in range. -/
def index? (n : Number) : Option Nat :=
  if n.isZero then some 0
  else if n.negative || n.exponent < 0 then none
  else do
    let zeros ← below? zerosBound n.exponent.toNat
    let coefficient ← below? indexBound n.coefficient
    let power ← appendZeros? 1 zeros
    below? indexBound (coefficient * power)

end Number

end HclSyntax
