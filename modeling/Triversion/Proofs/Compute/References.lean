import Triversion.Proofs.Compute.VersionChoice
import Triversion.Proofs.Identity.Urls
import Triversion.Proofs.Resource.Freezing

/-!
What forwarding rules refer to, whichever version represents them.

The versions of a rule agree in its address and its target as long as every call succeeds, so the
references may be read from any of them. Those are exactly what the two fields name.
-/

namespace Triversion.ForwardingRule

open Identity (IsUrlOf Unmarked)

section Fields

variable {field url address target : String} {id : Identity}

/-- What a field contributes to the references: the identity it names, if it has to name one. -/
def contribution (field url : String) (required : Bool) :
    Except InvalidReference (List Reference) :=
  if required then (reference field url).map fun found => [found] else .ok []

/-- The URL of an identity contributes that identity. -/
theorem contribution_of_url (names : IsUrlOf url id) :
    contribution field url true = .ok [⟨Path.root.field field, id⟩] := by
  rw [contribution, reference, Identity.read_eq_ok_iff.2 names]
  rfl

/-- What has to name an identity and names none is an invalid reference of its field. -/
theorem contribution_of_fault {fault : Fault} (failed : Identity.read url = .error fault) :
    contribution field url true = .error ⟨field, fault⟩ := by
  rw [contribution, reference, failed]
  rfl

/-- The references of a rule are those of its address, and then those of its target. -/
theorem referencesOf_eq (address target : String) : referencesOf address target =
    (contribution "IPAddress" address (namesResource address)).bind fun fromAddress =>
      (contribution "Target" target (!target.isEmpty)).map (fromAddress ++ ·) := by
  -- Each of the four ways in which the fields are required is one way through the program.
  unfold referencesOf contribution
  cases namesResource address <;> cases target.isEmpty <;> rfl

/-- An address names no resource exactly if it does not hold the marker. -/
theorem namesResource_eq_false_iff : namesResource address = false ↔ Unmarked address := by
  -- The search for the marker either finds one or shows that there is none.
  rw [namesResource, Unmarked, ← Identity.fromMarker_eq_none_iff]
  cases Identity.fromMarker address.toList <;> simp

/-- A target has to name an identity as soon as it is set. -/
theorem required_of_set (set : target ≠ "") : (!target.isEmpty) = true := by
  simpa using set

/-- An address without the marker leaves the references to the target. -/
theorem referencesOf_of_unmarked (literal : Unmarked address) :
    referencesOf address target = contribution "Target" target (!target.isEmpty) := by
  rw [referencesOf_eq, namesResource_eq_false_iff.2 literal]
  cases contribution "Target" target (!target.isEmpty) <;> rfl

/-- An address that names an identity refers to it, in front of what the target refers to. -/
theorem referencesOf_of_url (names : IsUrlOf address id) : referencesOf address target =
    (contribution "Target" target (!target.isEmpty)).map
      (⟨Path.root.field "IPAddress", id⟩ :: ·) := by
  -- A URL holds the marker, so the address is taken for a reference.
  have resource : namesResource address = true := by
    rw [← Bool.not_eq_false, namesResource_eq_false_iff]
    exact names.not_unmarked
  rw [referencesOf_eq, resource, contribution_of_url names]
  rfl

/-- A target that is set and names no identity lets the references fail, whatever the address is. -/
theorem referencesOf_of_fault {fault : Fault} (failed : Identity.read target = .error fault)
    (set : target ≠ "") : ∃ invalid, referencesOf address target = .error invalid ∧
      (Unmarked address ∨ (∃ id, IsUrlOf address id) → invalid = ⟨"Target", fault⟩) := by
  have refused : contribution "Target" target (!target.isEmpty) = .error ⟨"Target", fault⟩ := by
    rw [required_of_set set, contribution_of_fault failed]
  by_cases sound : Unmarked address ∨ ∃ id, IsUrlOf address id
  · -- An address that is fine leaves it to the target to fail.
    refine ⟨⟨"Target", fault⟩, ?_, fun _ => rfl⟩
    rcases sound with literal | ⟨id, names⟩
    · rw [referencesOf_of_unmarked literal, refused]
    · rw [referencesOf_of_url names, refused]
      rfl
  · -- Otherwise the address may fail before the target does.
    rw [referencesOf_eq, refused]
    cases contribution "IPAddress" address (namesResource address) with
    | error earlier => exact ⟨earlier, rfl, fun fine => absurd fine sound⟩
    | ok fromAddress => exact ⟨_, rfl, fun fine => absurd fine sound⟩

end Fields

section Versions

open Resource

/-- Versions that agree have the same address and the same target. -/
theorem endpoints_eq {resource : Resource ForwardingRuleOf Unit} (agrees : resource.Agrees kind)
    (version other : Version) :
    endpoints version (resource.values.get version) =
      endpoints other (resource.values.get other) := by
  -- Both fields are among those that all versions share.
  have fields : ∀ version (x : ForwardingRuleOf version), endpoints version x =
      ((shared version x).ipAddress, (shared version x).target) := by
    intro version x
    cases version <;> rfl
  rw [fields, fields, shared_eq agrees version other]

/-- The versions of a new rule agree after any calls that all succeed and a freezing that does. -/
theorem agrees_of_frozen {id : Identity} {created after : Resource ForwardingRuleOf Unit}
    {calls : List (Call ForwardingRuleOf)} {frozen : Frozen ForwardingRuleOf}
    (made : create id = .ok created) (succeed : AllSucceed kind created calls)
    (froze : freeze kind (performAll kind created calls) = (after, .ok frozen)) :
    after.Agrees kind := by
  -- Agreement is established by the creation and carried through every call.
  have before := performAll_induction (motive := fun resource => resource.Agrees kind)
    (fun _ _ agrees success => agrees.perform kind_ofRecords success)
    (agrees_new kind_ofRecords made) succeed
  -- Freezing is a call like the others.
  have success : (perform kind (performAll kind created calls) .freeze).2 = .ok () := by
    rw [perform, froze]
    rfl
  have agrees := before.perform kind_ofRecords success
  rwa [perform, froze] at agrees

/-- A freezing that succeeds hands out a frozen resource. -/
theorem exists_frozen {R : Version → Type} {σ : Type} {kind : Kind R σ} {resource : Resource R σ}
    (success : (perform kind resource .freeze).2 = .ok ()) :
    ∃ after frozen, freeze kind resource = (after, .ok frozen) := by
  rw [perform] at success
  cases result : (freeze kind resource).2 with
  | ok frozen => exact ⟨_, frozen, Prod.ext rfl result⟩
  | error fault => simp [result, Except.map] at success

/--
The references of a frozen rule do not depend on the version that represents it.

After any calls that all succeed, they are what the address and the target of any version amount
to: first the resource that the address names, if it names one, and then the one that the target
names, if it is set. A target that is set and names nothing lets them fail.
-/
theorem references_do_not_depend_on_version {id : Identity}
    {created after : Resource ForwardingRuleOf Unit} {calls : List (Call ForwardingRuleOf)}
    {frozen : Frozen ForwardingRuleOf} (made : create id = .ok created)
    (succeed : AllSucceed kind created calls)
    (froze : freeze kind (performAll kind created calls) = (after, .ok frozen))
    (version : Version) {address target : String}
    (holds : endpoints version (frozen.values.get version) = (address, target)) :
    references frozen = referencesOf address target ∧
    (Unmarked address →
      (target = "" → references frozen = .ok []) ∧
      ∀ y, IsUrlOf target y → references frozen = .ok [⟨Path.root.field "Target", y⟩]) ∧
    (∀ x, IsUrlOf address x →
      (target = "" → references frozen = .ok [⟨Path.root.field "IPAddress", x⟩]) ∧
      ∀ y, IsUrlOf target y → references frozen =
        .ok [⟨Path.root.field "IPAddress", x⟩, ⟨Path.root.field "Target", y⟩]) ∧
    ∀ fault, target ≠ "" → Identity.read target = .error fault →
      ∃ invalid, references frozen = .error invalid ∧
        (Unmarked address ∨ (∃ x, IsUrlOf address x) → invalid = ⟨"Target", fault⟩) := by
  have same : references frozen = referencesOf address target := by
    -- What is frozen is what the resource holds, and there all versions agree.
    have values := (freeze_eq_ok_iff.1 froze).2.2.2
    have chosen := endpoints_eq (agrees_of_frozen made succeed froze) frozen.version version
    rw [← values, holds] at chosen
    rw [references, chosen]
  have named : ∀ y, IsUrlOf target y → contribution "Target" target (!target.isEmpty) =
      .ok [⟨Path.root.field "Target", y⟩] := by
    intro y names
    rw [required_of_set names.ne_empty, contribution_of_url names]
  rw [same]
  refine ⟨rfl, fun literal => ⟨?_, fun y names => ?_⟩, fun x refers => ⟨?_, fun y names => ?_⟩,
    fun fault set failed => referencesOf_of_fault failed set⟩
  · rintro rfl
    exact referencesOf_of_unmarked literal
  · rw [referencesOf_of_unmarked literal, named y names]
  · rintro rfl
    exact referencesOf_of_url refers
  · rw [referencesOf_of_url refers, named y names]
    rfl

/-- An access that alpha alone knows is granted beside an address and a target given by URL. -/
def endpointsSet : List (Call ForwardingRuleOf) := [
  .edit .alpha fun x => { x with
    allowPscGlobalAccess := true
    ipAddress := "https://host/projects/p/regions/r/addresses/vip"
    target := "projects/p/global/targetPools/pool" }]

/-- Alpha represents that rule, but its references may be read from the stable version. -/
theorem references_do_not_depend_on_version_of_alpha_rule :
    ∃ created after frozen, create (regionalId "p" "r" "f") = .ok created ∧
      AllSucceed kind created endpointsSet ∧
      freeze kind (performAll kind created endpointsSet) = (after, .ok frozen) ∧
      frozen.version = .alpha ∧
      references frozen = .ok [
        ⟨Path.root.field "IPAddress", ⟨"p", "addresses", "vip", .regional "r"⟩⟩,
        ⟨Path.root.field "Target", ⟨"p", "targetPools", "pool", .global⟩⟩] := by
  obtain ⟨created, made, succeed, represents, freezes, holds⟩ :
      ∃ created, create (regionalId "p" "r" "f") = .ok created ∧
        AllSucceed kind created endpointsSet ∧
        (performAll kind created endpointsSet).representative = .ok .alpha ∧
        (perform kind (performAll kind created endpointsSet) .freeze).2 = .ok () ∧
        endpoints .stable
            ((freeze kind (performAll kind created endpointsSet)).1.values.get .stable) =
          ("https://host/projects/p/regions/r/addresses/vip",
            "projects/p/global/targetPools/pool") :=
    ⟨_, rfl, by decide +kernel⟩
  obtain ⟨after, frozen, froze⟩ := exists_frozen freezes
  obtain ⟨chosen, -, -, values⟩ := freeze_eq_ok_iff.1 froze
  rw [froze, ← values] at holds
  refine ⟨created, after, frozen, made, succeed, froze,
    Except.ok.inj (chosen.symm.trans represents), ?_⟩
  obtain ⟨-, -, named, -⟩ :=
    references_do_not_depend_on_version made succeed froze .stable holds
  have vip : IsUrlOf "https://host/projects/p/regions/r/addresses/vip"
      ⟨"p", "addresses", "vip", .regional "r"⟩ :=
    Identity.read_eq_ok_iff.1 (by decide +kernel)
  have pool : IsUrlOf "projects/p/global/targetPools/pool" ⟨"p", "targetPools", "pool", .global⟩ :=
    Identity.read_eq_ok_iff.1 (by decide +kernel)
  exact (named _ vip).2 _ pool

end Versions

end Triversion.ForwardingRule
