import HclSyntax.Number.Basic

namespace HclSyntax

structure Numeral where
  negative : Bool
  whole : List Char
  fraction : List Char
  exponentNegative : Bool
  exponent : List Char
  deriving DecidableEq, Repr

namespace Numeral

def sign : List Char → Bool × List Char
  | '-' :: r => (true, r)
  | '+' :: r => (false, r)
  | cs => (false, cs)

def digits? (cs : List Char) : Option (List Char × List Char) :=
  match cs.takeWhile Char.isDigit with
  | [] => none
  | ds => some (ds, cs.dropWhile Char.isDigit)

def fraction? : List Char → Option (List Char × List Char)
  | '.' :: r => digits? r
  | cs => some ([], cs)

def exponent? : List Char → Option (Bool × List Char × List Char)
  | 'e' :: r | 'E' :: r => (digits? (sign r).2).map ((sign r).1, ·)
  | cs => some (false, [], cs)

def read? (cs : List Char) : Option Numeral := do
  let (negative, cs) := sign cs
  let (whole, cs) ← digits? cs
  let (fraction, cs) ← fraction? cs
  let (exponentNegative, exponent, cs) ← exponent? cs
  guard cs.isEmpty
  return ⟨negative, whole, fraction, exponentNegative, exponent⟩

def valueOf (digits : List Char) : Nat := Nat.ofDigitChars 10 digits 0

def coefficient (n : Numeral) : Nat := valueOf (n.whole ++ n.fraction)

end Numeral

namespace Number

def wordBound : Nat := 0x8000000000000000

/-- Puts digits behind a number while it fits a word. -/
def appendDigits? (k : Nat) : List Char → Option Nat
  | [] => some k
  | c :: digits => do
    let shifted ← below? wordBound (10 * k)
    let next ← below? wordBound (shifted + (c.toNat - '0'.toNat))
    appendDigits? next digits

/-- The greatest magnitude of an exponent, as written and in normal form: 2 ^ 31 - 1. -/
def exponentLimit : Nat := 0x7FFFFFFF

def exponent? (n : Numeral) : Option Int :=
  match appendDigits? 0 n.exponent with
  | none => none
  | some k =>
    if exponentLimit < k then none else some (if n.exponentNegative then -k else k)

def ofNumeral (n : Numeral) : Except NumberError Number :=
  match exponent? n with
  | none => .error .outOfRange
  | some exponent =>
    let number := ofScaled n.negative n.coefficient (exponent - n.fraction.length)
    if exponentLimit < number.exponent.natAbs then .error .outOfRange else .ok number

def parse (text : String) : Except NumberError Number :=
  if text.isEmpty then .error .empty
  else match Numeral.read? text.toList with
    | none => .error .invalid
    | some n => ofNumeral n

/-- Integers up to this many digits are written in full. -/
def longestInteger : Int := 21

/-- The most zeros that may stand between the point and the first digit. -/
def mostLeadingZeros : Int := 5

def exponentText (e : Int) : List Char :=
  (if e < 0 then ['-'] else []) ++ Nat.toDigits 10 e.natAbs

def scientific (digits : List Char) (power : Int) : List Char :=
  let fraction := digits.drop 1
  digits.take 1 ++ (if fraction.isEmpty then [] else '.' :: fraction) ++ 'e' :: exponentText power

def layout (digits : List Char) (exponent : Int) : List Char :=
  let point := digits.length + exponent
  if 0 ≤ exponent && point ≤ longestInteger then digits ++ List.replicate exponent.toNat '0'
  else if exponent < 0 && 1 ≤ point then
    digits.take point.toNat ++ '.' :: digits.drop point.toNat
  else if -mostLeadingZeros ≤ point && point ≤ 0 then
    '0' :: '.' :: List.replicate (-point).toNat '0' ++ digits
  else scientific digits (point - 1)

def toChars (n : Number) : List Char :=
  (if n.negative then ['-'] else []) ++ layout (Nat.toDigits 10 n.coefficient) n.exponent

def toText (n : Number) : String := String.ofList n.toChars

end Number

end HclSyntax
