import Triversion.Missing
import Triversion.Identity
import Triversion.Value.Record

/-! The written forms of routes, identities, versions, directions and missing values. -/

namespace Triversion

/-- A segment is an object whose only key says what it is. -/
def Segment.toValue : Segment → Value
  | .field name => .object [("Field", .string name)]
  | .index i => .object [("Index", .whole i)]
  | .key k => .object [("Key", .string k)]

/-- Reads a written segment. -/
def Segment.ofValue? (v : Value) : Option Segment :=
  match v.carryingAlternative? with
  | some ("Field", .string name) => some (.field name)
  | some ("Index", i) => (i.nat? Path.indexBound).map .index
  | some ("Key", .string k) => some (.key k)
  | _ => none

/-- A route is the sequence of its segments. -/
def Path.toValue (path : Path) : Value :=
  .array (path.map Segment.toValue)

/-- Reads a written route. -/
def Path.ofValue? (v : Value) : Option Path :=
  v.items?.bind fun items => items.mapM Segment.ofValue?

/-- A scope is a word, or an object whose only key says what it is. -/
def Scope.toValue : Scope → Value
  | .global => .string "Global"
  | .regional region => .object [("Regional", .string region)]
  | .zonal zone => .object [("Zonal", .string zone)]

/-- Reads a written scope. -/
def Scope.ofValue? (v : Value) : Option Scope :=
  match v.bareAlternative? with
  | some "Global" => some .global
  -- The other scopes carry the name of a place.
  | _ =>
    match v.carryingAlternative? with
    | some ("Regional", .string region) => some (.regional region)
    | some ("Zonal", .string zone) => some (.zonal zone)
    | _ => none

/-- An identity keeps its name and scope together under a key. -/
def Identity.toValue (id : Identity) : Value :=
  .object [
    ("key", .object [("name", .string id.name), ("scope", id.scope.toValue)]),
    ("project", .string id.project),
    ("resource", .string id.kind)]

/-- Reads a written identity. -/
def Identity.ofValue? (v : Value) : Option Identity :=
  match v.members? ["project", "resource", "key"] with
  | some [.string project, .string kind, key] =>
    match key.members? ["name", "scope"] with
    | some [.string name, scope] =>
      (Scope.ofValue? scope).map fun scope => ⟨project, kind, name, scope⟩
    | _ => none
  | _ => none

/-- The word that stands for a version in written values. -/
def Version.word : Version → String
  | .stable => "Stable"
  | .alpha => "Alpha"
  | .beta => "Beta"

/-- The version that a word stands for. -/
def Version.ofWord? (word : String) : Option Version :=
  all.find? fun version => version.word = word

/-- A version is its word. -/
def Version.toValue (version : Version) : Value :=
  .string version.word

/-- Reads a written version. -/
def Version.ofValue? (v : Value) : Option Version :=
  v.bareAlternative?.bind ofWord?

/-- The word that stands for a direction in written values. -/
def Direction.word (direction : Direction) : String :=
  direction.source.word ++ "To" ++ direction.dest.word

/-- The direction that a word stands for. -/
def Direction.ofWord? (word : String) : Option Direction :=
  all.find? fun direction => direction.word = word

/-- A direction is its word. -/
def Direction.toValue (direction : Direction) : Value :=
  .string direction.word

/-- Reads a written direction. -/
def Direction.ofValue? (v : Value) : Option Direction :=
  v.bareAlternative?.bind ofWord?

/-- A missing value is written with its direction and its route. -/
def Missing.toValue (missing : Missing) : Value :=
  .object [
    ("context", missing.direction.toValue),
    ("path", missing.path.toValue),
    ("value", missing.value)]

/-- Reads a written missing value. -/
def Missing.ofValue? (v : Value) : Option Missing :=
  match v.members? ["context", "path", "value"] with
  | some [direction, path, value] => do
    return ⟨← Direction.ofValue? direction, ← Path.ofValue? path, value⟩
  | _ => none

/-- A shortfall lists its missing values. -/
def Shortfall.toValue (shortfall : Shortfall) : Value :=
  .object [("missing_fields", .array (shortfall.missing.map Missing.toValue))]

/-- Reads a written shortfall. -/
def Shortfall.ofValue? (v : Value) : Option Shortfall :=
  match v.members? ["missing_fields"] with
  | some [.array missing] => (missing.mapM Missing.ofValue?).map fun missing => ⟨missing⟩
  | _ => none

end Triversion
