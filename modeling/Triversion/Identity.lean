import Triversion.Ranked

/-! The identity of a resource, its short name and its place in resource URLs. -/

namespace Triversion

/-- Where a resource lives. -/
inductive Scope where
  | global
  | regional (region : String)
  | zonal (zone : String)
  deriving DecidableEq

namespace Scope

/-- The scope as it stands in names and URLs. -/
def text : Scope → String
  | .global => "global"
  | .regional region => "regions/" ++ region
  | .zonal zone => "zones/" ++ zone

/-- The global scope comes first, then regions, then zones, each by name. -/
def orderKey : Scope → Nat × String
  | .global => (0, "")
  | .regional region => (1, region)
  | .zonal zone => (2, zone)

/-- The order key forgets nothing about a scope. -/
theorem orderKey_injective : ∀ a b : Scope, a.orderKey = b.orderKey → a = b := by
  -- The number tells the three sorts of scope apart, the text the places within a sort.
  intro a b same
  cases a <;> cases b <;> simp_all [orderKey]

instance : Ranked Scope :=
  Ranked.onKey orderKey orderKey_injective

end Scope

/-- A resource of some kind, named within its project and scope. -/
structure Identity where
  project : String
  kind : String
  name : String
  scope : Scope
  deriving DecidableEq

/-- What can be wrong with a resource URL. -/
inductive UrlDefect where
  | noProject
  | emptySegment
  | wrongShape
  deriving DecidableEq

/-- The explanation shown for a defect. -/
def UrlDefect.message : UrlDefect → String
  | .noProject => "no projects/ segment"
  | .emptySegment => "empty segment"
  | .wrongShape => "expected projects/<project>/<scope>/<resource>/<name>"

namespace Identity

/-- Identities sort by project, kind, name and scope. -/
def orderKey (id : Identity) : String × String × String × Scope :=
  (id.project, id.kind, id.name, id.scope)

/-- The order key forgets nothing about an identity. -/
theorem orderKey_injective : ∀ a b : Identity, a.orderKey = b.orderKey → a = b := by
  -- All four parts of an identity are parts of its key.
  intro a b same
  cases a
  cases b
  simp_all [orderKey]

instance : Ranked Identity :=
  Ranked.onKey orderKey orderKey_injective

/-- The short name shown to people. -/
def text (id : Identity) : String :=
  id.kind ++ ":" ++ id.project ++ "/" ++ id.scope.text ++ "/" ++ id.name

/-- The name by which resources refer to each other. -/
def relativeName (id : Identity) : String :=
  "projects/" ++ id.project ++ "/" ++ id.scope.text ++ "/" ++ id.kind ++ "/" ++ id.name

/-- The marker at which the relative name begins inside a URL. -/
def marker : List Char :=
  "projects/".toList

/-- The text from the first marker on. -/
def fromMarker : List Char → Option (List Char)
  | [] => none
  | c :: rest => if marker.isPrefixOf (c :: rest) then some (c :: rest) else fromMarker rest

/-- The text without the slashes at its end. -/
def trimSlashes (chars : List Char) : List Char :=
  (chars.reverse.dropWhile (· == '/')).reverse

/-- The parts of a text between its slashes. -/
def parts : List Char → List (List Char)
  | [] => [[]]
  | c :: rest =>
    -- A slash opens an empty part in front of the others, any other character joins the first one.
    if c = '/' then [] :: parts rest
    else
      match parts rest with
      | [] => [[c]]
      | first :: others => (c :: first) :: others

/-- The identity that the parts of a relative name spell. -/
def ofParts? : List String → Option Identity
  | ["projects", project, "global", kind, name] =>
    some ⟨project, kind, name, .global⟩
  | ["projects", project, "regions", region, kind, name] =>
    some ⟨project, kind, name, .regional region⟩
  | ["projects", project, "zones", zone, kind, name] =>
    some ⟨project, kind, name, .zonal zone⟩
  | _ => none

/-- Reads the relative name that a URL contains, from its first marker to its end. -/
def ofUrl (url : String) : Except UrlDefect Identity :=
  match fromMarker url.toList with
  | none => .error .noProject
  | some tail =>
    -- An empty part anywhere is reported before the shape is looked at.
    let pieces := parts (trimSlashes tail)
    if pieces.any List.isEmpty then .error .emptySegment
    else
      match ofParts? (pieces.map String.ofList) with
      | some id => .ok id
      | none => .error .wrongShape

end Identity

end Triversion
