import Triversion.Value.At

/-! Fields that a copy leaves alone, by name at any depth or by route. -/

namespace Triversion

/-- Names and routes that are never copied; routes are kept without positions. -/
structure Exclusions where
  names : List String
  paths : List Path

namespace Exclusions

/-- Nothing is excluded. -/
def none : Exclusions :=
  ⟨[], []⟩

/-- Excludes every field of a name. -/
def excludeName (exclusions : Exclusions) (name : String) : Exclusions :=
  { exclusions with names := name :: exclusions.names }

/-- Excludes the field at a route, in every element of the sequences on the way. -/
def excludePath (exclusions : Exclusions) (path : Path) : Exclusions :=
  { exclusions with paths := path.withoutPositions :: exclusions.paths }

/-- Whether the field of this name at this route is left alone. -/
def excludes (exclusions : Exclusions) (name : String) (path : Path) : Bool :=
  exclusions.names.contains name || exclusions.paths.contains path.withoutPositions

mutual
/-- A value without the excluded fields inside it; keys of its maps count as field names. -/
def strip (exclusions : Exclusions) (path : Path) : Value → Value
  | .object fields => .object (stripFields exclusions path fields)
  | .array items => .array (stripItems exclusions path 0 items)
  | .null => .null
  | .bool b => .bool b
  | .number n => .number n
  | .string s => .string s

/-- The fields that are not excluded, each stripped in turn. -/
def stripFields (exclusions : Exclusions) (path : Path) :
    List (String × Value) → List (String × Value)
  | [] => []
  | (name, v) :: rest =>
    -- What an excluded field holds is gone with it, so it is not looked into.
    if exclusions.excludes name (path.field name) then stripFields exclusions path rest
    else (name, strip exclusions (path.field name) v) :: stripFields exclusions path rest

/-- The items from a position on, each stripped in turn. -/
def stripItems (exclusions : Exclusions) (path : Path) (i : Nat) : List Value → List Value
  | [] => []
  | v :: rest =>
    strip exclusions (path.index i) v :: stripItems exclusions path (i + 1) rest
end

end Exclusions

end Triversion
