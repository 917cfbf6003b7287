/-! Decimal digits: how natural numbers are written, and what a run of digits is worth. -/

namespace Triversion

/-- The decimal digits of a natural number. -/
def digitsOf (n : Nat) : List Char :=
  Nat.toDigits 10 n

/-- The number that a run of decimal digits is. -/
def digitsValue (digits : List Char) : Nat :=
  Nat.ofDigitChars 10 digits 0

/-- The digits of a number are worth the number. -/
@[simp] theorem digitsValue_digitsOf (n : Nat) : digitsValue (digitsOf n) = n :=
  Nat.ofDigitChars_toDigits (by decide) (by decide)

/-- A number is written in digits and nothing else. -/
theorem isDigit_of_mem_digitsOf {n : Nat} {c : Char} (inside : c ∈ digitsOf n) :
    c.isDigit = true :=
  Nat.isDigit_of_mem_toDigits (by decide) (by decide) inside

/-- Even zero is written with a digit. -/
@[simp] theorem digitsOf_ne_nil (n : Nat) : digitsOf n ≠ [] :=
  Nat.toDigits_ne_nil

end Triversion
