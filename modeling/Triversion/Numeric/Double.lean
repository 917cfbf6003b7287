import Triversion.Numeric.Power

/-! Finite binary64 numbers, each named by the place of its magnitude among all finite ones. -/

namespace Triversion

/-- The number of finite magnitudes: 2047 binary exponents with 2 ^ 52 fractions each. -/
def finiteMagnitudes : Nat :=
  2047 * twoTo 52

/-- A finite binary64 number: a sign, and a place in the ascending list of finite magnitudes. -/
structure Double where
  negative : Bool
  place : Fin finiteMagnitudes
  deriving DecidableEq

/-- Rounds a quotient to the nearest whole number, a half going to the even neighbour. -/
def roundHalfEven (num den : Nat) : Nat :=
  -- The doubled remainder tells on which side of the half the quotient lies.
  let floor := num / den
  let rest := num % den
  if 2 * rest < den then floor
  else if den < 2 * rest then floor + 1
  else floor + floor % 2

namespace Double

/-- The place of zero is the first one. -/
def zeroPlace : Fin finiteMagnitudes :=
  ⟨0, by decide⟩

/-- Positive zero. -/
def zero : Double :=
  ⟨false, zeroPlace⟩

instance : Inhabited Double :=
  ⟨zero⟩

/-- Both signs of zero count as zero. -/
def isZero (d : Double) : Bool :=
  d.place.val == 0

/-- The whole number whose product with the unit of the binade is the magnitude. -/
def significand (d : Double) : Nat :=
  if d.place.val < twoTo 52 then d.place.val else twoTo 52 + d.place.val % twoTo 52

/-- The magnitude is the significand times two to this scale, over 2 ^ 1074. -/
def scale (d : Double) : Nat :=
  d.place.val / twoTo 52 - 1

/-- The two signs of zero agree, and otherwise only equal numbers do. -/
def agrees (a b : Double) : Bool :=
  a = b || (a.isZero && b.isZero)

/-- The finite number nearest to a signed quotient, a half going to the even significand. -/
def ofRatio? (negative : Bool) (num den : Nat) : Option Double :=
  let units := num * twoTo 1074
  let scale := (units / den).log2 - 52
  -- Binades share their border, so a significand that rounds up to 2 ^ 53 needs no case.
  let place := scale * twoTo 52 + roundHalfEven units (den * twoTo scale)
  if h : place < finiteMagnitudes then some ⟨negative, place, h⟩ else none

/-- The finite number nearest to a whole number. -/
def ofInt? (i : Int) : Option Double :=
  ofRatio? (decide (i < 0)) i.natAbs 1

/-- The finite number nearest to digits times a power of ten. -/
def ofDecimal? (negative : Bool) (digits : Nat) (exponent : Int) : Option Double :=
  let size := (digits.log2 * 30103 / 100000 : Nat)
  if digits = 0 then some ⟨negative, zeroPlace⟩
  -- Far outside the finite range the answer is known without the power of ten.
  else if exponent + size > 400 then none
  else if exponent + size < -400 then some ⟨negative, zeroPlace⟩
  else if exponent < 0 then ofRatio? negative digits (tenTo (-exponent).toNat)
  else ofRatio? negative (digits * tenTo exponent.toNat) 1

end Double

end Triversion
