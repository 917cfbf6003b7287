import Triversion.Policy.Absence
import Triversion.Policy.Contract
import Triversion.Transfer.Copy

/-!
A resource held in its three versions at once.

Every change of one version is copied into the two others. What a version cannot hold is kept per
direction, until a later copy in the same direction says otherwise.
-/

namespace Triversion

/-- One representation for each version. -/
structure Triple (R : Version → Type) where
  stable : R .stable
  alpha : R .alpha
  beta : R .beta

namespace Triple

variable {R : Version → Type}

/-- The representation of a version. -/
def get (values : Triple R) : (version : Version) → R version
  | .stable => values.stable
  | .alpha => values.alpha
  | .beta => values.beta

/-- The same representations with another one for a version. -/
def set (values : Triple R) : (version : Version) → R version → Triple R
  | .stable, x => { values with stable := x }
  | .alpha, x => { values with alpha := x }
  | .beta, x => { values with beta := x }

@[simp] theorem get_set_self (values : Triple R) (version : Version) (x : R version) :
    (values.set version x).get version = x := by
  -- Each version has a part of its own.
  cases version <;> rfl

theorem get_set_of_ne (values : Triple R) {version other : Version} (different : version ≠ other)
    (x : R version) : (values.set version x).get other = values.get other := by
  -- Setting one part rebuilds the triple around the two others.
  cases version <;> cases other <;> first | rfl | contradiction

/-- Three representations are told apart by one of the versions. -/
theorem ext_get {a b : Triple R} (same : ∀ version, a.get version = b.get version) : a = b := by
  -- The three versions name all parts of a triple.
  obtain ⟨_, _, _⟩ := a
  obtain ⟨_, _, _⟩ := b
  exact congr (congr (congrArg Triple.mk (same .stable)) (same .alpha)) (same .beta)

end Triple

/-- How a bridging hook ends. -/
inductive Verdict where
  | passed
  | failed (reason : String)
  /-- The hook was called although nothing called for it. -/
  | outOfScript (reason : String)
  deriving DecidableEq

/-- A finished bridging hook: the destination as it left it, its own state, and how it ended. -/
structure HookRun (δ σ : Type) where
  dest : δ
  state : σ
  verdict : Verdict

/-- A hook that leaves everything as it is. -/
def HookRun.idle {δ σ : Type} (dest : δ) (state : σ) : HookRun δ σ :=
  ⟨dest, state, .passed⟩

/-- A kind of resource: its representation types and what is special about copying them. -/
structure Kind (R : Version → Type) (σ : Type) where
  codec : (version : Version) → Codec (R version)
  policy : Version → Policy
  exclusions : Exclusions
  /-- What runs after each copy, for what matching by name cannot express. -/
  hook : (direction : Direction) → R direction.source → R direction.dest → σ →
    HookRun (R direction.dest) σ

/-- A kind without special policy, exclusions or hooks. -/
def Kind.plain {R : Version → Type} (codec : (version : Version) → Codec (R version)) :
    Kind R Unit where
  codec := codec
  policy _ := Policy.initial
  exclusions := Exclusions.none
  hook _ _ dest state := HookRun.idle dest state

/-- A resource with its three representations, and what the last copy in each direction lost. -/
structure Resource (R : Version → Type) (σ : Type) where
  id : Identity
  values : Triple R
  slots : Direction → List Loss
  /-- The state of the bridging hooks. -/
  state : σ

/-- A resource that may no longer change, with the version that represents it. -/
structure Frozen (R : Version → Type) where
  id : Identity
  version : Version
  values : Triple R

namespace Resource

variable {R : Version → Type} {σ : Type}

/-- A slot holds what the latest copy in its direction lost. -/
def fillSlot (slots : Direction → List Loss) (direction : Direction) (losses : List Loss) :
    Direction → List Loss :=
  fun other => if other = direction then losses else slots other

/-- A resource with the default representations, each named after the identity. -/
def new (kind : Kind R σ) (id : Identity) (state : σ) : Except Fault (Resource R σ) := do
  let stable ← (kind.codec .stable).withName id.name (kind.codec .stable).initial
  let alpha ← (kind.codec .alpha).withName id.name (kind.codec .alpha).initial
  let beta ← (kind.codec .beta).withName id.name (kind.codec .beta).initial
  return ⟨id, ⟨stable, alpha, beta⟩, fun _ => [], state⟩

/-- Everything that the copies into a version could not carry over. -/
def missing (resource : Resource R σ) (version : Version) : List Missing :=
  (Direction.inbound version).flatMap fun direction =>
    (resource.slots direction).map (Missing.ofLoss direction)

/-- The shortfall of a version, if it is missing anything. -/
def shortfall (resource : Resource R σ) (version : Version) : Option Shortfall :=
  Shortfall.ofList? (resource.missing version)

/--
The single version that represents the resource without loss.

Stable is chosen if nothing is lost anywhere, alpha or beta if only they lose nothing.
-/
def representative (resource : Resource R σ) : Except Fault Version :=
  -- Losing something in one version only is as ambiguous as losing something in all three.
  match resource.shortfall .stable, resource.shortfall .alpha, resource.shortfall .beta with
  | none, none, none => .ok .stable
  | some _, none, some _ => .ok .alpha
  | some _, some _, none => .ok .beta
  | stable, alpha, beta => .error (.ambiguous stable alpha beta)

/-- Copies one version into another and runs the hook; the slot is written only if both succeed. -/
def convey (kind : Kind R σ) (resource : Resource R σ) (direction : Direction) :
    Resource R σ × Except Fault Unit :=
  let source := resource.values.get direction.source
  let outcome :=
    Transfer.copy kind.exclusions (kind.codec direction.source) (kind.codec direction.dest)
      source (resource.values.get direction.dest)
  match outcome.result with
  | .error fault => (resource, .error (.copy fault))
  | .ok copied =>
    -- The destination keeps the copy and what the hook did to it even if the hook fails.
    let run := kind.hook direction source copied resource.state
    let bridged : Resource R σ :=
      { resource with values := resource.values.set direction.dest run.dest, state := run.state }
    match run.verdict with
    | .passed =>
      ({ bridged with slots := fillSlot resource.slots direction outcome.losses }, .ok ())
    | .failed reason => (bridged, .error (.hook direction reason))
    | .outOfScript reason => (bridged, .error (.outOfScript reason))

/-- Copies in several directions, up to the first failure. -/
def conveyAll (kind : Kind R σ) (resource : Resource R σ) :
    List Direction → Resource R σ × Except Fault Unit
  | [] => (resource, .ok ())
  | direction :: rest =>
    match convey kind resource direction with
    | (next, .ok ()) => conveyAll kind next rest
    | (next, .error fault) => (next, .error fault)

/-- Changes one version; if that keeps its policy, the change is copied into the others. -/
def edit (kind : Kind R σ) (resource : Resource R σ) (version : Version)
    (change : R version → R version) : Resource R σ × Except Fault Unit :=
  let edited := change (resource.values.get version)
  let changed : Resource R σ := { resource with values := resource.values.set version edited }
  -- A change that breaks the policy stays where it was made, and is copied nowhere.
  match (kind.policy version).check version (kind.codec version) edited with
  | .error fault => (changed, .error fault)
  | .ok () => conveyAll kind changed (Direction.outbound version)

/-- Copies a representation into its own version, and from there into the others without a check. -/
def replace (kind : Kind R σ) (resource : Resource R σ) (version : Version) (x : R version) :
    Resource R σ × Except Fault Unit :=
  -- Within one version nothing is excluded, and no loss is kept.
  let outcome :=
    Transfer.copy Exclusions.none (kind.codec version) (kind.codec version) x
      (resource.values.get version)
  match outcome.result with
  | .error fault => (resource, .error (.copy fault))
  | .ok copied =>
    conveyAll kind { resource with values := resource.values.set version copied }
      (Direction.outbound version)

/-- Records the absent fields of several versions, up to the first failure. -/
def recordAll (kind : Kind R σ) (resource : Resource R σ) :
    List Version → Resource R σ × Except Fault Unit
  | [] => (resource, .ok ())
  | version :: rest =>
    let current := resource.values.get version
    match (kind.policy version).recordAbsences (kind.codec version) current with
    | .error fault => (resource, .error fault)
    | .ok filled =>
      recordAll kind { resource with values := resource.values.set version filled } rest

/-- Chooses the version that represents the resource, and records absences in the two others. -/
def freeze (kind : Kind R σ) (resource : Resource R σ) : Resource R σ × Except Fault (Frozen R) :=
  match resource.representative with
  | .error fault => (resource, .error fault)
  | .ok version =>
    match recordAll kind resource version.others with
    | (filled, .error fault) => (filled, .error fault)
    | (filled, .ok ()) => (filled, .ok ⟨filled.id, version, filled.values⟩)

end Resource

namespace Kind

variable {R : Version → Type} {σ : Type}

/-- Checks the contract of all three representation types. -/
def checkContract (kind : Kind R σ) : Except Fault Unit := do
  (kind.codec .stable).checkContract
  (kind.codec .alpha).checkContract
  (kind.codec .beta).checkContract

/-- Checks that the policy of every version names only fields of that version. -/
def checkPolicies (kind : Kind R σ) : Except Fault Unit := do
  (kind.policy .stable).checkDeclared (kind.codec .stable)
  (kind.policy .alpha).checkDeclared (kind.codec .alpha)
  (kind.policy .beta).checkDeclared (kind.codec .beta)

end Kind

end Triversion
