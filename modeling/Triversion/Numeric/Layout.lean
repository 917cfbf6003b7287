import Triversion.Numeric.Digits
import Triversion.Numeric.Shortest

/-! The written form of numbers: digits for whole numbers, a point or an exponent for binary64. -/

namespace Triversion

/-- A whole number is written with a minus sign if it is negative. -/
def wholeText (i : Int) : String :=
  String.ofList ((if i < 0 then ['-'] else []) ++ digitsOf i.natAbs)

namespace Double

/-- The largest decimal exponent of a number that is written without an exponent. -/
def positionalMax : Int := 15

/-- The smallest decimal exponent of a number that is written without an exponent. -/
def positionalMin : Int := -5

/-- The exponent always carries its sign. -/
def exponentText (e : Int) : List Char :=
  (if e < 0 then ['e', '-'] else ['e', '+']) ++ digitsOf e.natAbs

/-- Places the point among digits whose last one counts the given power of ten. -/
def layout (digits : List Char) (grid : Int) : List Char :=
  -- The decimal exponent is that of the first digit.
  let exponent := grid + digits.length - 1
  if positionalMin ≤ exponent && exponent ≤ positionalMax then
    -- Whole numbers still show a point, so that they read back as binary64 numbers.
    if 0 ≤ grid then digits ++ List.replicate grid.toNat '0' ++ ['.', '0']
    else if 0 ≤ exponent then
      let whole := exponent.toNat + 1
      digits.take whole ++ ['.'] ++ digits.drop whole
    else ['0', '.'] ++ List.replicate (-exponent - 1).toNat '0' ++ digits
  else
    let fraction := digits.drop 1
    digits.take 1 ++ (if fraction.isEmpty then [] else '.' :: fraction) ++ exponentText exponent

/-- The fewest digits that read back, with a point or an exponent in any case. -/
def text (d : Double) : String :=
  let (digits, grid) := d.shortest
  String.ofList ((if d.negative then ['-'] else []) ++ layout (digitsOf digits) grid)

end Double

end Triversion
