/-! Powers of two and of ten, the bases in which numbers are held and written. -/

namespace Triversion

/-- The number of things that so many bits tell apart. -/
def twoTo (bits : Nat) : Nat :=
  Nat.pow 2 bits

/-- The number of things that so many decimal digits tell apart. -/
def tenTo (digits : Nat) : Nat :=
  Nat.pow 10 digits

end Triversion
