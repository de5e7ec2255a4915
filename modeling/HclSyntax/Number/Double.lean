import HclSyntax.Number.Basic

namespace HclSyntax

namespace Double

/-- The least significand with all its 53 bits. -/
def leadingBit : Nat := 0x10000000000000

/-- The binary exponent of the smallest positive float. -/
def leastExponent : Int := -1074

def infinity : Nat := 0x7FF0000000000000

def signBit : Nat := 0x8000000000000000

def scale (num den : Nat) (q : Int) : Nat × Nat :=
  (num * Nat.pow 2 (-q).toNat, den * Nat.pow 2 q.toNat)

/-- The nearest natural number to `num / den`, a tie going to the even one. -/
def roundDiv (num den : Nat) : Nat :=
  let k := num / den
  let twice := 2 * (num % den)
  if twice < den || (twice == den && k % 2 == 0) then k else k + 1

/-- The exponent at which `num / den` has 53 significant bits, not below the least one. The first
guess has one bit too many at most. -/
def binaryExponent (num den : Nat) : Int :=
  let q := max (num.log2 - den.log2 - 53 : Int) leastExponent
  let (n, d) := scale num den q
  if n / d < 2 * leadingBit then q else q + 1

/-- The bits of the float nearest to the positive fraction `num / den`. A significand that rounds up
to the next power of two carries into the exponent field by itself. -/
def nearest (num den : Nat) : Nat :=
  let q := binaryExponent num den
  let (n, d) := scale num den q
  let significand := roundDiv n d
  min infinity (significand + (q - leastExponent).toNat * leadingBit)

structure Parts where
  significand : Nat
  exponent : Int
  /-- Whether the float below lies at half the usual distance. -/
  narrowBelow : Bool
  deriving DecidableEq, Repr

/-- The parts of the magnitude `bits`, which must be below `infinity`. -/
def parts (bits : Nat) : Parts :=
  let field := bits / leadingBit
  let fraction := bits % leadingBit
  if field = 0 then ⟨fraction, leastExponent, false⟩
  else ⟨leadingBit + fraction, leastExponent + (field - 1 : Nat), fraction = 0 && 1 < field⟩

/-- Four times a float and the ends of the interval that rounds to it, over one denominator and
with the power `10 ^ j` as unit. -/
structure Interval where
  low : Nat
  value : Nat
  high : Nat
  unit : Nat
  closed : Bool

def Parts.interval (p : Parts) (j : Int) : Interval :=
  let binary := p.exponent - 2
  let factor := Nat.pow 2 binary.toNat * Nat.pow 10 (-j).toNat
  let four := 4 * p.significand
  { low := (four - if p.narrowBelow then 1 else 2) * factor
    value := four * factor
    high := (four + 2) * factor
    unit := Nat.pow 10 j.toNat * Nat.pow 2 (-binary).toNat
    closed := p.significand % 2 == 0 }

def Interval.holds (i : Interval) (c : Nat) : Bool :=
  let x := c * i.unit
  if i.closed then i.low ≤ x && x ≤ i.high else i.low < x && x < i.high

/-- The multiple of the unit nearest to the float that rounds to it, a tie going up. Only the two
neighbours of the float can be that multiple. -/
def Interval.pick? (i : Interval) : Option Nat :=
  let below := i.value / i.unit
  let nearBelow := 2 * (i.value % i.unit) < i.unit
  if i.holds below && (nearBelow || !i.holds (below + 1)) then some below
  else if i.holds (below + 1) then some (below + 1)
  else none

/-- Tries the units `10 ^ j`, `10 ^ (j - 1)` and so on. -/
def Parts.shortestFrom (p : Parts) : Nat → Int → Nat × Int
  | 0, j => ((p.interval j).value / (p.interval j).unit, j)
  | grids + 1, j =>
    match (p.interval j).pick? with
    | some c => (c, j)
    | none => p.shortestFrom grids (j - 1)

/-- A power of ten above the float, from log10 2 < 0.30103. -/
def Parts.decimalExponent (p : Parts) : Int :=
  (p.significand.log2 + 1 + p.exponent) * 30103 / 100000 + 1

/-- The shortest decimal that rounds to the float, as digits and a power of ten. Seventeen digits
always suffice, and the first unit is at most two places too coarse. -/
def Parts.shortest (p : Parts) : Nat × Int := p.shortestFrom 20 p.decimalExponent

end Double

namespace Number

/-- The decimal point of a number stands this many places behind its first digit. -/
def pointPlace (n : Number) : Int := (Nat.toDigits 10 n.coefficient).length + n.exponent

/-- The bits of the nearest float without its sign. Past 10 ^ 309 all is infinite and below
10 ^ (-324) all is zero, which keeps the powers small. -/
def doubleMagnitude (n : Number) : Nat :=
  if n.isZero then 0
  else if 309 < n.pointPlace then Double.infinity
  else if n.pointPlace ≤ -324 then 0
  else Double.nearest (n.coefficient * Nat.pow 10 n.exponent.toNat)
    (Nat.pow 10 (-n.exponent).toNat)

/-- The nearest float; too great a number is infinite, too small a one a zero of its sign. -/
def toFloat (n : Number) : Float :=
  Float.ofBits (UInt64.ofNat ((if n.negative then Double.signBit else 0) + n.doubleMagnitude))

def ofFloat (x : Float) : Except NumberError Number :=
  let bits := x.toBits.toNat
  let magnitude := bits % Double.signBit
  if Double.infinity ≤ magnitude then .error .outOfRange
  else if magnitude = 0 then .ok zero
  else
    let (digits, exponent) := (Double.parts magnitude).shortest
    .ok (ofScaled (Double.signBit ≤ bits) digits exponent)

end Number

end HclSyntax
