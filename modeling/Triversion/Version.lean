/-! The three API versions of a resource and the six directions of copying one into another. -/

namespace Triversion

/-- One of the three schemas that a resource is expressed in. -/
inductive Version where
  | stable
  | alpha
  | beta
  deriving DecidableEq

namespace Version

/-- All versions in table order. -/
def all : List Version :=
  [.stable, .alpha, .beta]

/-- The place of a version in table order. -/
def index : Version → Nat
  | .stable => 0
  | .alpha => 1
  | .beta => 2

/-- The two other versions in table order. -/
def others : Version → List Version
  | .stable => [.alpha, .beta]
  | .alpha => [.stable, .beta]
  | .beta => [.stable, .alpha]

/-- The word for a version. -/
def text : Version → String
  | .stable => "stable"
  | .alpha => "alpha"
  | .beta => "beta"

end Version

/-- A copy from one version into a different one. -/
inductive Direction where
  | stableToAlpha
  | stableToBeta
  | alphaToStable
  | alphaToBeta
  | betaToStable
  | betaToAlpha
  deriving DecidableEq

namespace Direction

/-- All directions in table order. -/
def all : List Direction :=
  [.stableToAlpha, .stableToBeta, .alphaToStable, .alphaToBeta, .betaToStable, .betaToAlpha]

/-- The place of a direction in table order. -/
def index : Direction → Nat
  | .stableToAlpha => 0
  | .stableToBeta => 1
  | .alphaToStable => 2
  | .alphaToBeta => 3
  | .betaToStable => 4
  | .betaToAlpha => 5

/-- The version that is copied. -/
def source : Direction → Version
  | .stableToAlpha | .stableToBeta => .stable
  | .alphaToStable | .alphaToBeta => .alpha
  | .betaToStable | .betaToAlpha => .beta

/-- The version that is copied into. -/
def dest : Direction → Version
  | .alphaToStable | .betaToStable => .stable
  | .stableToAlpha | .betaToAlpha => .alpha
  | .stableToBeta | .alphaToBeta => .beta

/-- The direction between two versions; there is none from a version to itself. -/
def between? : Version → Version → Option Direction
  | .stable, .alpha => some .stableToAlpha
  | .stable, .beta => some .stableToBeta
  | .alpha, .stable => some .alphaToStable
  | .alpha, .beta => some .alphaToBeta
  | .beta, .stable => some .betaToStable
  | .beta, .alpha => some .betaToAlpha
  | .stable, .stable | .alpha, .alpha | .beta, .beta => none

/-- The two directions into a version, in table order. -/
def inbound : Version → List Direction
  | .stable => [.alphaToStable, .betaToStable]
  | .alpha => [.stableToAlpha, .betaToAlpha]
  | .beta => [.stableToBeta, .alphaToBeta]

/-- The two directions out of a version, in table order. -/
def outbound : Version → List Direction
  | .stable => [.stableToAlpha, .stableToBeta]
  | .alpha => [.alphaToStable, .alphaToBeta]
  | .beta => [.betaToStable, .betaToAlpha]

/-- A direction is written as its two versions around an arrow. -/
def text (direction : Direction) : String :=
  direction.source.text ++ "->" ++ direction.dest.text

/-- A direction is found again from its two ends, and only from these. -/
theorem between?_eq_some_iff (source dest : Version) (direction : Direction) :
    between? source dest = some direction ↔
      direction.source = source ∧ direction.dest = dest := by
  -- There are nine pairs of versions and six directions to compare them with.
  cases source <;> cases dest <;> cases direction <;>
    simp [between?, Direction.source, Direction.dest]

/-- The directions into a version are those that end there, in table order. -/
theorem inbound_eq_filter (dest : Version) :
    inbound dest = all.filter fun direction => direction.dest = dest := by
  cases dest <;> rfl

/-- The directions out of a version are those that start there, in table order. -/
theorem outbound_eq_filter (source : Version) :
    outbound source = all.filter fun direction => direction.source = source := by
  cases source <;> rfl

end Direction

end Triversion
