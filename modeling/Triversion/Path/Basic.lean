import Triversion.Ranked

/-! Routes into nested values: field names, positions in sequences and keys of maps. -/

namespace Triversion

/-- One step of a route. -/
inductive Segment where
  /-- A named field of a struct. -/
  | field (name : String)
  /-- A position in a sequence. -/
  | index (i : Nat)
  /-- A key of a map. -/
  | key (k : String)
  deriving DecidableEq

namespace Segment

/-- The name that a field or key segment looks up in an object. -/
def name? : Segment → Option String
  | .field name => some name
  | .index _ => none
  | .key k => some k

/-- Whether the segment is a position in a sequence. -/
def isIndex : Segment → Bool
  | .index _ => true
  | _ => false

/-- Fields come before positions, positions before keys, and each sort by its content. -/
def orderKey : Segment → Nat × Nat × String
  -- The first number tells the three sorts apart.
  | .field name => (0, 0, name)
  | .index i => (1, i, "")
  | .key k => (2, 0, k)

/-- The order key forgets nothing about a segment. -/
theorem orderKey_injective : ∀ a b : Segment, a.orderKey = b.orderKey → a = b := by
  -- Keys of different sorts differ in the first number, keys of one sort in the content.
  intro a b same
  cases a <;> cases b <;> simp_all [orderKey]

instance : Ranked Segment :=
  Ranked.onKey orderKey orderKey_injective

end Segment

/-- A route from the root of a value, outermost step first; the empty route is the root itself. -/
abbrev Path := List Segment

namespace Path

/-- The route to the whole value. -/
def root : Path :=
  []

/-- One step further, into a field. -/
def field (path : Path) (name : String) : Path :=
  path ++ [.field name]

/-- One step further, to a position. -/
def index (path : Path) (i : Nat) : Path :=
  path ++ [.index i]

/-- One step further, under a key. -/
def key (path : Path) (k : String) : Path :=
  path ++ [.key k]

/-- The route without its last step; the root has none. -/
def parent? (path : Path) : Option Path :=
  if path.isEmpty then none else some path.dropLast

/-- The route without its positions, so that one declaration covers every element of a sequence. -/
def withoutPositions (path : Path) : Path :=
  path.filter fun segment => !segment.isIndex

/-- Whether the route passes through the position that another route ends at. -/
def startsWith (path initial : Path) : Bool :=
  initial.isPrefixOf path

/-- Removing positions a second time removes nothing more. -/
@[simp] theorem withoutPositions_withoutPositions (path : Path) :
    path.withoutPositions.withoutPositions = path.withoutPositions := by
  -- The steps that are left are no positions.
  simp [withoutPositions]

/-- The steps of two joined routes are stripped one route at a time. -/
@[simp] theorem withoutPositions_append (path rest : Path) :
    withoutPositions (path ++ rest) = path.withoutPositions ++ rest.withoutPositions := by
  -- Whether a step stays depends on nothing but the step.
  simp [withoutPositions]

end Path

end Triversion
