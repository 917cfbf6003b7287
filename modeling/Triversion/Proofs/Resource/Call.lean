import Triversion.Resource.Basic

/-! Calls as data, what one copy between versions does, and what a run of calls leaves. -/

namespace Triversion

/-- A call that may change a resource. -/
inductive Call (R : Version → Type) where
  | edit (version : Version) (change : R version → R version)
  | replace (version : Version) (x : R version)
  | freeze

/-- The version that a call starts from; freezing starts from none. -/
def Call.version? {R : Version → Type} : Call R → Option Version
  | .edit version _ => some version
  | .replace version _ => some version
  | .freeze => none

/-- The failure that a hook brings about in its direction, unless it passes. -/
def Verdict.fault? (direction : Direction) : Verdict → Option Fault
  | .passed => none
  | .failed reason => some (.hook direction reason)
  | .outOfScript reason => some (.outOfScript reason)

/-- Only a hook that passes brings no failure about. -/
theorem Verdict.fault?_eq_none {direction : Direction} {verdict : Verdict}
    (sound : verdict.fault? direction = none) : verdict = .passed := by
  cases verdict <;> simp_all [Verdict.fault?]

namespace Direction

/-- A version is copied into the others, never into itself. -/
theorem dest_ne_source (direction : Direction) : direction.dest ≠ direction.source := by
  cases direction <;> decide

/-- A direction leaves a version exactly if it is one of its outbound directions. -/
theorem mem_outbound_iff {version : Version} {direction : Direction} :
    direction ∈ outbound version ↔ direction.source = version := by
  cases version <;> cases direction <;> decide

/-- A direction enters a version exactly if it is one of its inbound directions. -/
theorem mem_inbound_iff {version : Version} {direction : Direction} :
    direction ∈ inbound version ↔ direction.dest = version := by
  cases version <;> cases direction <;> decide

/-- The directions out of a version end in different versions. -/
theorem outbound_dests_nodup (version : Version) : ((outbound version).map dest).Nodup := by
  cases version <;> decide

/-- There is a direction between any two different versions. -/
theorem exists_between {version other : Version} (different : version ≠ other) :
    ∃ direction : Direction, direction.source = version ∧ direction.dest = other := by
  -- The table has an entry for each pair of different versions.
  cases found : between? version other with
  | none => cases version <;> cases other <;> simp_all [between?]
  | some direction => exact ⟨direction, (between?_eq_some_iff version other direction).1 found⟩

end Direction

namespace Resource

variable {R : Version → Type} {σ : Type}

/-- The resource with another representation for a version, and nothing else changed. -/
def withValue (resource : Resource R σ) (version : Version) (x : R version) : Resource R σ :=
  { resource with values := resource.values.set version x }

@[simp] theorem slots_withValue (resource : Resource R σ) (version : Version) (x : R version) :
    (resource.withValue version x).slots = resource.slots :=
  rfl

@[simp] theorem values_withValue (resource : Resource R σ) (version : Version) (x : R version) :
    (resource.withValue version x).values = resource.values.set version x :=
  rfl

/-- The copy that a direction makes of what the resource holds. -/
def transfer (kind : Kind R σ) (resource : Resource R σ) (direction : Direction) :
    Outcome (R direction.dest) :=
  Transfer.copy kind.exclusions (kind.codec direction.source) (kind.codec direction.dest)
    (resource.values.get direction.source) (resource.values.get direction.dest)

/-- The hook of a direction at work on a copied destination, in a state of its own. -/
def bridge (kind : Kind R σ) (resource : Resource R σ) (direction : Direction)
    (copied : R direction.dest) (state : σ) : HookRun (R direction.dest) σ :=
  kind.hook direction (resource.values.get direction.source) copied state

/-- The copy within a version that a replacement starts with. -/
def ownCopy (kind : Kind R σ) (resource : Resource R σ) (version : Version) (x : R version) :
    Outcome (R version) :=
  Transfer.copy Exclusions.none (kind.codec version) (kind.codec version) x
    (resource.values.get version)

section Convey

variable {kind : Kind R σ} {resource : Resource R σ} {direction : Direction}

/-- A failed copy ends the conveyance before anything has changed. -/
theorem convey_of_copyFault {fault : CopyFault}
    (failed : (resource.transfer kind direction).result = .error fault) :
    convey kind resource direction = (resource, .error (.copy fault)) := by
  -- A conveyance begins with exactly this copy.
  unfold transfer at failed
  simp only [convey, failed]

/-- A passed hook lets the destination and the slot change together. -/
theorem convey_of_passed {copied value : R direction.dest} {next : σ}
    (fits : (resource.transfer kind direction).result = .ok copied)
    (bridged : resource.bridge kind direction copied resource.state = ⟨value, next, .passed⟩) :
    convey kind resource direction =
      ({ resource.withValue direction.dest value with
          slots := fillSlot resource.slots direction (resource.transfer kind direction).losses
          state := next }, .ok ()) := by
  unfold transfer at fits
  unfold bridge at bridged
  simp only [convey, fits, bridged, withValue, transfer]

/-- A hook that does not pass leaves its destination as it made it, and the slot as it was. -/
theorem convey_of_broken {copied value : R direction.dest} {next : σ} {verdict : Verdict}
    {fault : Fault} (fits : (resource.transfer kind direction).result = .ok copied)
    (bridged : resource.bridge kind direction copied resource.state = ⟨value, next, verdict⟩)
    (broken : verdict.fault? direction = some fault) :
    convey kind resource direction =
      ({ resource.withValue direction.dest value with state := next }, .error fault) := by
  unfold transfer at fits
  unfold bridge at bridged
  -- Two verdicts bring a failure about, and both skip the slot.
  cases verdict <;> cases broken <;> simp only [convey, fits, bridged, withValue]

variable (kind resource direction) in
/-- A conveyance fails at its copy, or else at its hook, or else it goes through. -/
theorem convey_cases :
    (∃ fault, (resource.transfer kind direction).result = .error fault ∧
      convey kind resource direction = (resource, .error (.copy fault))) ∨
    ∃ copied value next verdict, (resource.transfer kind direction).result = .ok copied ∧
      resource.bridge kind direction copied resource.state = ⟨value, next, verdict⟩ ∧
      ((∃ fault, verdict.fault? direction = some fault ∧
        convey kind resource direction =
          ({ resource.withValue direction.dest value with state := next }, .error fault)) ∨
      (verdict = .passed ∧
        convey kind resource direction =
          ({ resource.withValue direction.dest value with
              slots := fillSlot resource.slots direction (resource.transfer kind direction).losses
              state := next }, .ok ()))) := by
  cases fits : (resource.transfer kind direction).result with
  | error fault => exact .inl ⟨fault, rfl, convey_of_copyFault fits⟩
  | ok copied =>
    cases bridged : resource.bridge kind direction copied resource.state with
    | mk value next verdict =>
      refine .inr ⟨copied, value, next, verdict, rfl, bridged, ?_⟩
      cases broken : verdict.fault? direction with
      | some fault => exact .inl ⟨fault, rfl, convey_of_broken fits bridged broken⟩
      | none =>
        obtain rfl := Verdict.fault?_eq_none broken
        exact .inr ⟨rfl, convey_of_passed fits bridged⟩

variable (kind resource direction) in
/-- A conveyance touches the representation it goes to and its own slot at most. -/
theorem convey_frame :
    (∀ version, version ≠ direction.dest →
      (convey kind resource direction).1.values.get version = resource.values.get version) ∧
    ∀ other, other ≠ direction →
      (convey kind resource direction).1.slots other = resource.slots other := by
  obtain ⟨_, _, conveyed⟩ | ⟨_, _, _, _, _, _, ⟨_, _, conveyed⟩ | ⟨_, conveyed⟩⟩ :=
    convey_cases kind resource direction
  · rw [conveyed]
    exact ⟨fun _ _ => rfl, fun _ _ => rfl⟩
  · -- The destination is written even if its hook breaks.
    rw [conveyed]
    exact ⟨fun _ different => Triple.get_set_of_ne _ (Ne.symm different) _, fun _ _ => rfl⟩
  · rw [conveyed]
    refine ⟨fun _ different => Triple.get_set_of_ne _ (Ne.symm different) _, ?_⟩
    intro other different
    simp [fillSlot, different]

end Convey

/-- Copying out of a version leaves the version itself and the slots of other sources alone. -/
theorem conveyAll_frame (kind : Kind R σ) (resource : Resource R σ) {version : Version}
    {directions : List Direction}
    (leaves : ∀ direction ∈ directions, direction.source = version) :
    (conveyAll kind resource directions).1.values.get version = resource.values.get version ∧
    ∀ direction, direction.source ≠ version →
      (conveyAll kind resource directions).1.slots direction = resource.slots direction := by
  induction directions generalizing resource with
  | nil => exact ⟨rfl, fun _ _ => rfl⟩
  | cons first rest ih =>
    obtain ⟨values, slots⟩ := convey_frame kind resource first
    -- The first copy goes to another version, and fills a slot of this source.
    have starts : first.source = version := leaves first (by simp)
    have value := values version (starts ▸ Ne.symm first.dest_ne_source)
    have slot : ∀ direction, direction.source ≠ version →
        (convey kind resource first).1.slots direction = resource.slots direction :=
      fun direction foreign => slots direction fun same => foreign (same ▸ starts)
    rw [conveyAll]
    split
    · next next proceeds =>
      rw [proceeds] at value slot
      obtain ⟨laterValue, laterSlot⟩ :=
        ih next fun direction member => leaves direction (List.mem_cons_of_mem _ member)
      exact ⟨laterValue.trans value, fun direction foreign =>
        (laterSlot direction foreign).trans (slot direction foreign)⟩
    · next next fault stops =>
      rw [stops] at value slot
      exact ⟨value, slot⟩

/-- Carries out one call; the frozen resource that freezing hands out is left aside. -/
def perform (kind : Kind R σ) (resource : Resource R σ) :
    Call R → Resource R σ × Except Fault Unit
  | .edit version change => edit kind resource version change
  | .replace version x => replace kind resource version x
  | .freeze => ((freeze kind resource).1, (freeze kind resource).2.map fun _ => ())

/-- The resource after a run of calls, whether they succeed or fail. -/
def performAll (kind : Kind R σ) (resource : Resource R σ) : List (Call R) → Resource R σ
  | [] => resource
  | call :: rest => performAll kind (perform kind resource call).1 rest

/-- No call of a run fails. -/
def AllSucceed (kind : Kind R σ) (resource : Resource R σ) : List (Call R) → Prop
  | [] => True
  | call :: rest =>
    (perform kind resource call).2 = .ok () ∧
      AllSucceed kind (perform kind resource call).1 rest

instance decidableEqOk {ε α : Type} [DecidableEq α] (x : α) :
    (result : Except ε α) → Decidable (result = .ok x)
  | .ok y => decidable_of_iff (y = x) ⟨congrArg Except.ok, Except.ok.inj⟩
  | .error _ => isFalse nofun

instance decidableAllSucceed (kind : Kind R σ) (resource : Resource R σ) :
    (calls : List (Call R)) → Decidable (AllSucceed kind resource calls)
  | [] => isTrue trivial
  | call :: rest =>
    have := decidableAllSucceed kind (perform kind resource call).1 rest
    inferInstanceAs (Decidable ((perform kind resource call).2 = .ok () ∧ _))

/-- The version and the state that a call copies from, unless it ends before any copy. -/
def entered? (kind : Kind R σ) (resource : Resource R σ) :
    Call R → Option (Version × Resource R σ)
  | .edit version change =>
    let edited := change (resource.values.get version)
    match (kind.policy version).check version (kind.codec version) edited with
    | .error _ => none
    | .ok () => some (version, resource.withValue version edited)
  | .replace version x =>
    match (resource.ownCopy kind version x).result with
    | .error _ => none
    | .ok copied => some (version, resource.withValue version copied)
  -- Freezing looks at the slots and copies nothing.
  | .freeze => none

/-- A call that gets as far as copying has set its own version, and does nothing but copy after. -/
theorem entered?_cases {kind : Kind R σ} {resource start : Resource R σ} {call : Call R}
    {version : Version} (entered : entered? kind resource call = some (version, start)) :
    call.version? = some version ∧ (∃ x, start = resource.withValue version x) ∧
      perform kind resource call = conveyAll kind start (Direction.outbound version) := by
  -- Past its own first step an edit and a replacement go on alike.
  cases call with
  | edit source change =>
    simp only [entered?] at entered
    split at entered
    · contradiction
    · next passed =>
      obtain ⟨rfl, rfl⟩ := by simpa using entered
      exact ⟨rfl, ⟨_, rfl⟩, by simp only [perform, edit, passed, withValue]⟩
  | replace source x =>
    simp only [entered?] at entered
    split at entered
    · contradiction
    · next copied fits =>
      obtain ⟨rfl, rfl⟩ := by simpa using entered
      unfold ownCopy at fits
      exact ⟨rfl, ⟨_, rfl⟩, by simp only [perform, replace, fits, withValue]⟩
  | freeze => simp [entered?] at entered

/-- Recording absences changes representations only. -/
theorem recordAll_changes_values (kind : Kind R σ) (resource : Resource R σ)
    (versions : List Version) :
    ∃ values, (recordAll kind resource versions).1 = { resource with values := values } := by
  -- Each version that is recorded sets one representation, and a failure stops the recording.
  induction versions generalizing resource with
  | nil => exact ⟨resource.values, rfl⟩
  | cons version rest ih =>
    simp only [recordAll]
    split
    · exact ⟨resource.values, rfl⟩
    · exact ih _

/-- Freezing changes representations only, whether it succeeds or fails. -/
theorem freeze_changes_values (kind : Kind R σ) (resource : Resource R σ) :
    ∃ values, (freeze kind resource).1 = { resource with values := values } := by
  -- Either no version can be chosen, or absences are recorded in the two others.
  unfold freeze
  split
  · exact ⟨resource.values, rfl⟩
  · next version _ =>
    have recorded := recordAll_changes_values kind resource version.others
    split <;> next filled => rw [filled] at recorded; exact recorded

/-- A call that ends before any copy changes representations only. -/
theorem perform_changes_values {kind : Kind R σ} {resource : Resource R σ} {call : Call R}
    (ended : entered? kind resource call = none) :
    ∃ values, (perform kind resource call).1 = { resource with values := values } := by
  -- Whatever ends a call before its copies is no copy between versions.
  cases call with
  | edit version change =>
    simp only [entered?] at ended
    split at ended
    · next broken =>
      exact ⟨resource.values.set version (change (resource.values.get version)),
        by simp only [perform, edit, broken]⟩
    · contradiction
  | replace version x =>
    simp only [entered?] at ended
    split at ended
    · next failed =>
      unfold ownCopy at failed
      exact ⟨resource.values, by simp only [perform, replace, failed]⟩
    · contradiction
  | freeze => exact freeze_changes_values kind resource

/-- Freezing leaves all slots as they were, whether it succeeds or fails. -/
theorem slots_freeze (kind : Kind R σ) (resource : Resource R σ) :
    (freeze kind resource).1.slots = resource.slots := by
  obtain ⟨_, same⟩ := freeze_changes_values kind resource
  rw [same]

/-- A call that ends before any copy leaves all slots as they were. -/
theorem slots_perform_of_not_entered {kind : Kind R σ} {resource : Resource R σ}
    {call : Call R} (ended : entered? kind resource call = none) :
    (perform kind resource call).1.slots = resource.slots := by
  obtain ⟨_, same⟩ := perform_changes_values ended
  rw [same]

/-- A call that ends before any copy leaves the state of the hooks as it was. -/
theorem state_perform_of_not_entered {kind : Kind R σ} {resource : Resource R σ}
    {call : Call R} (ended : entered? kind resource call = none) :
    (perform kind resource call).1.state = resource.state := by
  obtain ⟨_, same⟩ := perform_changes_values ended
  rw [same]

/-- A new resource holds the named defaults, and nothing in its slots. -/
theorem new_eq_ok {kind : Kind R σ} {id : Identity} {state : σ} {created : Resource R σ}
    (made : new kind id state = .ok created) :
    (∀ version, (kind.codec version).withName id.name (kind.codec version).initial =
      .ok (created.values.get version)) ∧ created.slots = fun _ => [] := by
  -- The three versions are named in turn, and the first failure would have been reported.
  simp only [new, bind, Except.bind] at made
  split at made
  · contradiction
  · next stable namedStable =>
    split at made
    · contradiction
    · next alpha namedAlpha =>
      split at made
      · contradiction
      · next beta namedBeta =>
        simp only [pure, Except.pure, Except.ok.injEq] at made
        subst made
        refine ⟨fun version => ?_, rfl⟩
        cases version with
        | stable => exact namedStable
        | alpha => exact namedAlpha
        | beta => exact namedBeta

/-- A version lacks something exactly if one of the slots that lead into it holds something. -/
theorem shortfall_eq_none_iff (resource : Resource R σ) (version : Version) :
    resource.shortfall version = none ↔
      ∀ direction, direction.dest = version → resource.slots direction = [] := by
  -- A shortfall is a list of what is missing that is not empty.
  have listed : resource.shortfall version = none ↔ resource.missing version = [] := by
    simp [shortfall, Shortfall.ofList?]
  rw [listed, missing, List.flatMap_eq_nil_iff]
  constructor
  · intro empty direction inbound
    simpa using empty direction (Direction.mem_inbound_iff.2 inbound)
  · intro empty direction member
    simpa using empty direction (Direction.mem_inbound_iff.1 member)

/-- The version that represents a resource lacks nothing. -/
theorem shortfall_of_representative {resource : Resource R σ} {version : Version}
    (represents : resource.representative = .ok version) : resource.shortfall version = none := by
  unfold representative at represents
  -- In each of the three answers the chosen version is one without a shortfall.
  split at represents
  · cases represents; assumption
  · cases represents; assumption
  · cases represents; assumption
  · contradiction

end Resource

end Triversion
