import Triversion.Proofs.Compute.Addresses
import Triversion.Proofs.Compute.ForwardingRules

/-!
The version chosen for addresses and forwarding rules holds everything that was set.

Matched fields agree by the theory of records. The purpose of an address is carried by its hook
instead, so that it agrees because every successful call has carried it.
-/

namespace Triversion

/-- What holds of an address as long as every call has succeeded. -/
structure Address.Sound (resource : Resource AddressOf Unit) : Prop where
  /-- The versions hold equal values in every field that all of them have. -/
  shared : ∀ version other,
    shared version (resource.values.get version) = shared other (resource.values.get other)
  endpoint : resource.values.alpha.ipv6EndpointType = resource.values.beta.ipv6EndpointType
  /-- The chosen version lacks no value that another one holds. -/
  chosen : ∀ choice, resource.representative = .ok choice → ∀ version name v,
    kind.isMatched name = true → resource.fieldOf kind version name = some v →
    v.isBlank = false → resource.fieldOf kind choice name = some v
  stable : resource.representative = .ok .stable →
    resource.values.alpha.featureFlag = false ∧ resource.values.alpha.ipv6EndpointType = "" ∧
      resource.values.beta.ipv6EndpointType = ""
  beta : resource.representative = .ok .beta → resource.values.alpha.featureFlag = false

/-- What holds of a forwarding rule as long as every call has succeeded. -/
structure ForwardingRule.Sound (resource : Resource ForwardingRuleOf Unit) : Prop where
  /-- The versions hold equal values in every field that all of them have. -/
  shared : ∀ version other,
    shared version (resource.values.get version) = shared other (resource.values.get other)
  ranges : resource.values.alpha.sourceIpRanges = resource.values.beta.sourceIpRanges
  /-- The chosen version lacks no value that another one holds. -/
  chosen : ∀ choice, resource.representative = .ok choice → ∀ version name v,
    kind.isMatched name = true → resource.fieldOf kind version name = some v →
    v.isBlank = false → resource.fieldOf kind choice name = some v
  stable : resource.representative = .ok .stable →
    resource.values.alpha.allowPscGlobalAccess = false ∧
      resource.values.alpha.sourceIpRanges = [] ∧ resource.values.beta.sourceIpRanges = []
  beta : resource.representative = .ok .beta →
    resource.values.alpha.allowPscGlobalAccess = false

namespace Resource

variable {R : Version → Type} {σ : Type} {kind : Kind R σ} {resource : Resource R σ}

/-- Matched fields that two versions list under the same names are the same fields. -/
theorem Agrees.fields_eq (agrees : resource.Agrees kind) {version other : Version}
    {left right : Fields} (names : left.map (·.1) = right.map (·.1))
    (matched : ∀ entry ∈ left, kind.isMatched entry.1 = true)
    (foundLeft : ∀ entry ∈ left, resource.fieldOf kind version entry.1 = some entry.2)
    (foundRight : ∀ entry ∈ right, resource.fieldOf kind other entry.1 = some entry.2) :
    left = right := by
  -- Fields of one name are compared pair by pair.
  induction left generalizing right with
  | nil => exact (List.map_eq_nil_iff.1 names.symm).symm
  | cons entry rest ih =>
    obtain ⟨name, a⟩ := entry
    cases right with
    | nil => simp at names
    | cons entry' rest' =>
      obtain ⟨name', b⟩ := entry'
      obtain ⟨rfl, later⟩ := List.cons.inj names
      simp only [List.forall_mem_cons] at matched foundLeft foundRight
      rw [agrees.shared _ matched.1 version other a b foundLeft.1 foundRight.1,
        ih later matched.2 foundLeft.2 foundRight.2]

/-- What the chosen version cannot hold is blank. -/
theorem Agrees.blank_of_chosen (agrees : resource.Agrees kind) {name : String}
    (isMatched : kind.isMatched name = true) {choice version : Version}
    (represents : resource.representative = .ok choice)
    (lacking : resource.fieldOf kind choice name = none) {v : Value}
    (found : resource.fieldOf kind version name = some v) : v.isBlank = true := by
  -- A value that carries information would be held by the chosen version as well.
  cases filled : v.isBlank with
  | true => rfl
  | false =>
    have held := agrees.of_representative represents isMatched found filled
    simp [lacking] at held

end Resource

namespace Address

open Resource

/-- A purpose that is carried into a version is the purpose of that version. -/
theorem purposeIn_withPurpose (version : Version) (x : AddressOf version) (purpose : String) :
    purposeIn version (withPurpose version x purpose) = purpose := by
  cases version <;> rfl

/-- A purpose that was carried without failing is what the destination has been given. -/
theorem carryPurpose_of_passed {δ : Type} {purpose : String} {dest value : δ}
    {carry : δ → String → δ} {after : Unit}
    (passed : carryPurpose purpose dest carry = ⟨value, after, .passed⟩) :
    value = carry dest purpose := by
  unfold carryPurpose at passed
  -- A purpose that does not exist would have failed.
  split at passed
  · exact (HookRun.mk.inj passed).1.symm
  · simp at passed

/-- All versions have one purpose. -/
def PurposeAgrees (resource : Resource AddressOf Unit) : Prop :=
  ∀ version other, purposeIn version (resource.values.get version) =
    purposeIn other (resource.values.get other)

/-- A propagation that succeeds has carried the purpose of its source into every version. -/
theorem purposeIn_conveyAll {start : Resource AddressOf Unit} {version : Version}
    (success : (conveyAll kind start (Direction.outbound version)).2 = .ok ()) (other : Version) :
    purposeIn other
        ((conveyAll kind start (Direction.outbound version)).1.values.get other) =
      purposeIn version (start.values.get version) := by
  -- The hook into another version has passed, so it has set the purpose of the source.
  by_cases same : version = other
  · subst same
    rw [(conveyAll_propagates kind start version).source]
  · obtain ⟨direction, rfl, rfl⟩ := Direction.exists_between same
    obtain ⟨_, copied, before, after, _, bridged⟩ := conveyAll_of_ok success rfl
    rw [carryPurpose_of_passed bridged, purposeIn_withPurpose]

/-- Calls that succeed keep the purposes equal. -/
theorem PurposeAgrees.perform {resource : Resource AddressOf Unit}
    (agrees : PurposeAgrees resource) {call : Call AddressOf}
    (success : (Resource.perform kind resource call).2 = .ok ()) :
    PurposeAgrees (Resource.perform kind resource call).1 := by
  -- After a copy all purposes are that of the source; freezing changes none of them.
  intro version other
  rcases perform_of_ok success with ⟨source, start, entered⟩ | rfl
  · rw [(entered?_cases entered).2.2] at success ⊢
    rw [purposeIn_conveyAll success, purposeIn_conveyAll success]
  · have kept : ∀ version, purposeIn version
        ((Resource.perform kind resource .freeze).1.values.get version) =
          purposeIn version (resource.values.get version) := by
      intro version
      have field := fieldOf_freeze kind_ofRecords resource
        (show isBookkeeping (purposeField version) = false by cases version <;> decide) version
      unfold fieldOf at field
      simp only [kind, fieldAt_purposeField] at field
      exact Value.string.inj (Option.some.inj field)
    rw [kept, kept, agrees version other]

/-- The purposes of a new address are all unset. -/
theorem purposeAgrees_create {id : Identity} {created : Resource AddressOf Unit}
    (made : create id = .ok created) : PurposeAgrees created := by
  -- The purpose is no name, so it is blank in every version.
  have unset : ∀ version, purposeIn version (created.values.get version) = "" := by
    intro version
    have field := fieldOf_new kind_ofRecords made version (purposeField version)
    unfold fieldOf at field
    simp only [kind, fieldAt_purposeField] at field
    have blank : (if purposeField version = nameField then some (Value.string id.name)
        else (Keyed.get? (purposeField version) (sortsIn version)).map FieldSort.blank) =
          some (.string "") := by
      cases version <;> rfl
    exact Value.string.inj (Option.some.inj (field.trans blank))
  intro version other
  rw [unset, unset]

/-- The shared fields of two versions are the same if the matched ones and the purposes are. -/
theorem shared_eq {resource : Resource AddressOf Unit} (agrees : resource.Agrees kind)
    (purposes : PurposeAgrees resource) (version other : Version) :
    shared version (resource.values.get version) =
      shared other (resource.values.get other) := by
  have left := fieldAt_matched version (resource.values.get version)
  have right := fieldAt_matched other (resource.values.get other)
  have purpose : (shared version (resource.values.get version)).purpose =
      (shared other (resource.values.get other)).purpose := by
    have same := purposes version other
    cases version <;> cases other <;> exact same
  generalize shared version (resource.values.get version) = x at left purpose ⊢
  generalize shared other (resource.values.get other) = y at right purpose ⊢
  have matched : ∀ entry ∈ x.matched, kind.isMatched entry.1 = true := by
    simp only [Shared.matched, List.forall_mem_cons, List.not_mem_nil, false_imp_iff,
      implies_true, and_true]
    decide
  have same : x.matched = y.matched := agrees.fields_eq rfl matched left right
  cases x
  cases y
  simp only [Shared.matched, List.cons.injEq, Prod.mk.injEq, Value.string.injEq, true_and,
    and_true] at same
  obtain ⟨name, description, address, type, ipVersion, tier, subnetwork, labels, link, status⟩ :=
    same
  simp only [Shared.mk.injEq]
  exact ⟨name, description, address, type, ipVersion, tier, purpose, subnetwork,
    Labels.toValue_injective labels, link, status⟩

/-- An address whose versions agree is sound. -/
theorem sound_of_agrees {resource : Resource AddressOf Unit} (agrees : resource.Agrees kind)
    (purposes : PurposeAgrees resource) : Sound resource := by
  have flag : resource.fieldOf kind .alpha "FeatureFlag" =
      some (.bool resource.values.alpha.featureFlag) :=
    (AlphaAddress.lawful.fieldAt_codec "AlphaAddress" _ _).trans rfl
  have alphaEndpoint : resource.fieldOf kind .alpha "Ipv6EndpointType" =
      some (.string resource.values.alpha.ipv6EndpointType) :=
    (AlphaAddress.lawful.fieldAt_codec "AlphaAddress" _ _).trans rfl
  have betaEndpoint : resource.fieldOf kind .beta "Ipv6EndpointType" =
      some (.string resource.values.beta.ipv6EndpointType) :=
    (BetaAddress.lawful.fieldAt_codec "BetaAddress" _ _).trans rfl
  have stableFlag : resource.fieldOf kind .stable "FeatureFlag" = none :=
    (isRecord .stable).undeclared _ _ (by decide +kernel)
  have betaFlag : resource.fieldOf kind .beta "FeatureFlag" = none :=
    (isRecord .beta).undeclared _ _ (by decide +kernel)
  have stableEndpoint : resource.fieldOf kind .stable "Ipv6EndpointType" = none :=
    (isRecord .stable).undeclared _ _ (by decide +kernel)
  refine ⟨shared_eq agrees purposes, ?_, ?_, ?_, ?_⟩
  · exact Value.string.inj (agrees.shared _ (by decide) _ _ _ _ alphaEndpoint betaEndpoint)
  · intro choice represents version name v isMatched found filled
    exact agrees.of_representative represents isMatched found filled
  · intro represents
    have noFlag := agrees.blank_of_chosen (by decide) represents stableFlag flag
    have noAlpha := agrees.blank_of_chosen (by decide) represents stableEndpoint alphaEndpoint
    have noBeta := agrees.blank_of_chosen (by decide) represents stableEndpoint betaEndpoint
    simp only [Value.isBlank, Bool.not_eq_true', String.isEmpty_iff] at noFlag noAlpha noBeta
    exact ⟨noFlag, noAlpha, noBeta⟩
  · intro represents
    have noFlag := agrees.blank_of_chosen (by decide) represents betaFlag flag
    simpa only [Value.isBlank, Bool.not_eq_true'] using noFlag

end Address

namespace ForwardingRule

open Resource

/-- The shared fields of two versions are the same. -/
theorem shared_eq {resource : Resource ForwardingRuleOf Unit} (agrees : resource.Agrees kind)
    (version other : Version) :
    shared version (resource.values.get version) =
      shared other (resource.values.get other) := by
  have left := fieldAt_matched version (resource.values.get version)
  have right := fieldAt_matched other (resource.values.get other)
  generalize shared version (resource.values.get version) = x at left ⊢
  generalize shared other (resource.values.get other) = y at right ⊢
  have matched : ∀ entry ∈ x.matched, kind.isMatched entry.1 = true := by
    simp only [Shared.matched, List.forall_mem_cons, List.not_mem_nil, false_imp_iff,
      implies_true, and_true]
    decide
  have same : x.matched = y.matched := agrees.fields_eq rfl matched left right
  cases x
  cases y
  simp only [Shared.matched, List.cons.injEq, Prod.mk.injEq, Value.string.injEq, true_and,
    and_true] at same
  obtain ⟨name, description, address, protocol, scheme, network, range, ports, target, labels,
    link⟩ := same
  simp only [Shared.mk.injEq]
  exact ⟨name, description, address, protocol, scheme, network, range,
    Value.strings_injective ports, target, Labels.toValue_injective labels, link⟩

/-- A forwarding rule whose versions agree is sound. -/
theorem sound_of_agrees {resource : Resource ForwardingRuleOf Unit}
    (agrees : resource.Agrees kind) : Sound resource := by
  have access : resource.fieldOf kind .alpha "AllowPscGlobalAccess" =
      some (.bool resource.values.alpha.allowPscGlobalAccess) :=
    (AlphaForwardingRule.lawful.fieldAt_codec "AlphaForwardingRule" _ _).trans rfl
  have alphaRanges : resource.fieldOf kind .alpha "SourceIpRanges" =
      some (Value.strings resource.values.alpha.sourceIpRanges) :=
    (AlphaForwardingRule.lawful.fieldAt_codec "AlphaForwardingRule" _ _).trans rfl
  have betaRanges : resource.fieldOf kind .beta "SourceIpRanges" =
      some (Value.strings resource.values.beta.sourceIpRanges) :=
    (BetaForwardingRule.lawful.fieldAt_codec "BetaForwardingRule" _ _).trans rfl
  have stableAccess : resource.fieldOf kind .stable "AllowPscGlobalAccess" = none :=
    (isRecord .stable).undeclared _ _ (by decide +kernel)
  have betaAccess : resource.fieldOf kind .beta "AllowPscGlobalAccess" = none :=
    (isRecord .beta).undeclared _ _ (by decide +kernel)
  have stableRanges : resource.fieldOf kind .stable "SourceIpRanges" = none :=
    (isRecord .stable).undeclared _ _ (by decide +kernel)
  refine ⟨shared_eq agrees, ?_, ?_, ?_, ?_⟩
  · exact Value.strings_injective (agrees.shared _ (by decide) _ _ _ _ alphaRanges betaRanges)
  · intro choice represents version name v isMatched found filled
    exact agrees.of_representative represents isMatched found filled
  · intro represents
    have noAccess := agrees.blank_of_chosen (by decide) represents stableAccess access
    have noAlpha := agrees.blank_of_chosen (by decide) represents stableRanges alphaRanges
    have noBeta := agrees.blank_of_chosen (by decide) represents stableRanges betaRanges
    simp only [Value.strings, Value.isBlank, Bool.not_eq_true', List.isEmpty_iff,
      List.map_eq_nil_iff] at noAccess noAlpha noBeta
    exact ⟨noAccess, noAlpha, noBeta⟩
  · intro represents
    have noAccess := agrees.blank_of_chosen (by decide) represents betaAccess access
    simpa only [Value.isBlank, Bool.not_eq_true'] using noAccess

end ForwardingRule

namespace Resource

/--
The version choice of addresses and forwarding rules is sound over whole runs.

After any calls that all succeed, the versions agree in what they share, and the version that is
chosen lacks no value that another one holds.
-/
theorem version_choice_sound :
    (∀ id created calls, Address.create id = .ok created →
      AllSucceed Address.kind created calls →
      Address.Sound (performAll Address.kind created calls)) ∧
    (∀ id created calls, ForwardingRule.create id = .ok created →
      AllSucceed ForwardingRule.kind created calls →
      ForwardingRule.Sound (performAll ForwardingRule.kind created calls)) := by
  constructor
  · intro id created calls made succeed
    -- Agreement in matched fields and in the purpose is carried through the run together.
    obtain ⟨agrees, purposes⟩ := performAll_induction
      (motive := fun resource => resource.Agrees Address.kind ∧ Address.PurposeAgrees resource)
      (fun resource call before success =>
        ⟨before.1.perform Address.kind_ofRecords success, before.2.perform success⟩)
      ⟨agrees_new Address.kind_ofRecords made, Address.purposeAgrees_create made⟩ succeed
    exact Address.sound_of_agrees agrees purposes
  · intro id created calls made succeed
    have agrees := performAll_induction
      (motive := fun resource => resource.Agrees ForwardingRule.kind)
      (fun resource call before success =>
        before.perform ForwardingRule.kind_ofRecords success)
      (agrees_new ForwardingRule.kind_ofRecords made) succeed
    exact ForwardingRule.sound_of_agrees agrees

/-- A feature that alpha alone knows is set beside a purpose, and the address is frozen. -/
def featureSetThenFrozen : List (Call AddressOf) := [
  .edit .alpha fun x => { x with featureFlag := true, addressPurpose := "VPC_PEERING" },
  .freeze]

/-- An access that alpha alone knows is granted. -/
def accessGranted : List (Call ForwardingRuleOf) := [
  .edit .alpha fun x => { x with allowPscGlobalAccess := true }]

/-- In both runs alpha is chosen, and rightly so. -/
theorem version_choice_sound_of_alpha_runs :
    (∃ created, Address.create (Address.globalId "p" "a") = .ok created ∧
      (AllSucceed Address.kind created featureSetThenFrozen ∧
        (performAll Address.kind created featureSetThenFrozen).representative = .ok .alpha) ∧
      Address.Sound (performAll Address.kind created featureSetThenFrozen)) ∧
    (∃ created, ForwardingRule.create (ForwardingRule.regionalId "p" "r" "a") = .ok created ∧
      (AllSucceed ForwardingRule.kind created accessGranted ∧
        (performAll ForwardingRule.kind created accessGranted).representative = .ok .alpha) ∧
      ForwardingRule.Sound (performAll ForwardingRule.kind created accessGranted)) := by
  constructor
  · refine ⟨_, rfl, (and_iff_left_of_imp fun runs => ?_).2 (by decide +kernel)⟩
    exact version_choice_sound.1 (Address.globalId "p" "a") _ _ rfl runs.1
  · refine ⟨_, rfl, (and_iff_left_of_imp fun runs => ?_).2 (by decide +kernel)⟩
    exact version_choice_sound.2 (ForwardingRule.regionalId "p" "r" "a") _ _ rfl runs.1

end Resource

end Triversion
