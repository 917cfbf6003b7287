import Triversion.Proofs.Policy.Records
import Triversion.Proofs.Resource.Propagation
import Triversion.Proofs.Transfer.Records

/-!
Resources whose three versions are records.

As long as calls succeed, the versions agree in every field that is matched by name, and what one
of them cannot hold stands in a slot that leads into it.
-/

namespace Triversion

/-- Whether a field is matched by name, so that a copy carries it. -/
def Kind.isMatched {R : Version → Type} {σ : Type} (kind : Kind R σ) (name : String) : Bool :=
  !isBookkeeping name && !kind.exclusions.excludes name [.field name]

/-- A kind whose representation types are records, each with a name, that hooks leave matched. -/
structure Kind.OfRecords {R : Version → Type} {σ : Type} (kind : Kind R σ)
    (sorts : Version → Sorts) : Prop where
  record : ∀ version, (kind.codec version).IsRecord (sorts version)
  matching : ∀ version other, (sorts version).Matching (sorts other)
  named : ∀ version, Keyed.get? nameField (sorts version) = some .text
  /-- A hook touches no field that the copy before it carries. -/
  bridged : ∀ direction source dest state name, kind.isMatched name = true →
    (kind.codec direction.dest).fieldAt name (kind.hook direction source dest state).dest =
      (kind.codec direction.dest).fieldAt name dest

namespace Resource

variable {R : Version → Type} {σ : Type}

/-- The written value of a field in a version. -/
def fieldOf (kind : Kind R σ) (resource : Resource R σ) (version : Version) (name : String) :
    Option Value :=
  (kind.codec version).fieldAt name (resource.values.get version)

/-- The versions of a resource agree, and none of them loses a value that no slot reports. -/
structure Agrees (kind : Kind R σ) (resource : Resource R σ) : Prop where
  shared : ∀ name, kind.isMatched name = true → ∀ version other a b,
    resource.fieldOf kind version name = some a → resource.fieldOf kind other name = some b → a = b
  reported : ∀ name, kind.isMatched name = true → ∀ version lacking a,
    resource.fieldOf kind version name = some a → a.isBlank = false →
    resource.fieldOf kind lacking name = none →
    ∃ direction, direction.dest = lacking ∧ resource.fieldOf kind direction.source name ≠ none ∧
      ⟨[.field name], a⟩ ∈ resource.slots direction

/-- What a successful propagation makes of the matched fields and of the slots. -/
structure Refreshes (kind : Kind R σ) (start : Resource R σ) (version : Version)
    (ending : Resource R σ) : Prop where
  field : ∀ name, kind.isMatched name = true → ∀ other,
    ending.fieldOf kind other name =
      (start.fieldOf kind other name).map fun old => (start.fieldOf kind version name).getD old
  reported : ∀ name, kind.isMatched name = true → ∀ direction v, direction.source = version →
    start.fieldOf kind direction.dest name = none → start.fieldOf kind version name = some v →
    v.isBlank = false → ⟨[.field name], v⟩ ∈ ending.slots direction
  otherSlots : ∀ direction, direction.source ≠ version →
    ending.slots direction = start.slots direction

section Records

variable {kind : Kind R σ} {sorts : Version → Sorts}

/-- Whether a version has a field does not depend on what it holds. -/
theorem fieldOf_eq_none_iff (records : kind.OfRecords sorts) (resource other : Resource R σ)
    (version : Version) (name : String) :
    resource.fieldOf kind version name = none ↔ other.fieldOf kind version name = none := by
  -- Either way the name is declared in the version, or it is not.
  unfold fieldOf
  rw [(records.record version).fieldAt_eq_none, (records.record version).fieldAt_eq_none]

/-- A matched field is no bookkeeping list and not excluded. -/
theorem isMatched_iff {name : String} :
    kind.isMatched name = true ↔
      isBookkeeping name = false ∧ kind.exclusions.excludes name [.field name] = false := by
  simp [Kind.isMatched]

/-- A copy between records carries every matched field that both have, and reports the others. -/
theorem transfer_of_records (records : kind.OfRecords sorts) (start : Resource R σ)
    (direction : Direction) :
    ∃ copied, (start.transfer kind direction).result = .ok copied ∧
      (∀ name, kind.isMatched name = true →
        (kind.codec direction.dest).fieldAt name copied =
          (start.fieldOf kind direction.dest name).map fun old =>
            (start.fieldOf kind direction.source name).getD old) ∧
      ∀ name v, kind.isMatched name = true → start.fieldOf kind direction.dest name = none →
        start.fieldOf kind direction.source name = some v → v.isBlank = false →
        ⟨[.field name], v⟩ ∈ (start.transfer kind direction).losses := by
  -- A copy between records says the same of fields that are neither excluded nor lists.
  obtain ⟨copied, losses, outcome, fields, lost⟩ := copy_of_records
    (records.record direction.source) (records.record direction.dest)
    (records.matching direction.source direction.dest) kind.exclusions
    (start.values.get direction.source) (start.values.get direction.dest)
  have transfer : start.transfer kind direction = ⟨.ok copied, losses⟩ := outcome
  refine ⟨copied, by rw [transfer], ?_, ?_⟩
  · intro name isMatched
    obtain ⟨ordinary, included⟩ := isMatched_iff.1 isMatched
    have field := fields name ordinary
    simp only [included, Bool.false_eq_true, if_false] at field
    exact field
  · intro name v isMatched absent found filled
    obtain ⟨ordinary, included⟩ := isMatched_iff.1 isMatched
    rw [transfer]
    exact lost name v ordinary included absent found filled

/-- A propagation between records that succeeds refreshes everything that is matched. -/
theorem refreshes_of_ok (records : kind.OfRecords sorts) {start : Resource R σ} {version : Version}
    (success : (conveyAll kind start (Direction.outbound version)).2 = .ok ()) :
    start.Refreshes kind version (conveyAll kind start (Direction.outbound version)).1 where
  field name isMatched other := by
    by_cases same : version = other
    · -- The version itself is copied nowhere, so its fields are what they were.
      subst same
      have own := (conveyAll_propagates kind start version).source
      simp only [fieldOf, own]
      cases (kind.codec version).fieldAt name (start.values.get version) <;> rfl
    · obtain ⟨direction, rfl, rfl⟩ := Direction.exists_between same
      obtain ⟨_, copied, before, after, fits, bridged⟩ := conveyAll_of_ok success rfl
      obtain ⟨_, again, fields, _⟩ := transfer_of_records records start direction
      obtain rfl := Except.ok.inj (fits.symm.trans again)
      -- The hook leaves the field as the copy made it.
      have kept := records.bridged direction (start.values.get direction.source) copied before name
        isMatched
      rw [show kind.hook direction _ copied before = _ from bridged] at kept
      exact kept.trans (fields name isMatched)
  reported name isMatched direction v leaves absent found filled := by
    subst leaves
    rw [(conveyAll_of_ok success rfl).1]
    obtain ⟨_, _, _, lost⟩ := transfer_of_records records start direction
    exact lost name v isMatched absent found filled
  otherSlots := (conveyAll_propagates kind start version).slots

/-- A version that takes a new value and is propagated leaves the versions in agreement. -/
theorem Agrees.of_refreshes (records : kind.OfRecords sorts) {resource ending : Resource R σ}
    (agrees : resource.Agrees kind) {version : Version} {x : R version}
    (refreshes : (resource.withValue version x).Refreshes kind version ending) :
    ending.Agrees kind := by
  have untouched : ∀ {other}, version ≠ other → ∀ name,
      (resource.withValue version x).fieldOf kind other name =
        resource.fieldOf kind other name := by
    intro other different name
    simp only [fieldOf, values_withValue, Triple.get_set_of_ne _ different]
  constructor
  · intro name isMatched first second a b foundFirst foundSecond
    rw [refreshes.field name isMatched] at foundFirst foundSecond
    obtain ⟨oldFirst, inFirst, rfl⟩ := Option.map_eq_some_iff.1 foundFirst
    obtain ⟨oldSecond, inSecond, rfl⟩ := Option.map_eq_some_iff.1 foundSecond
    cases new : (resource.withValue version x).fieldOf kind version name with
    | some v => rfl
    -- Without a new value the field is one of the two other versions alone, and stays in both.
    | none =>
      have notFirst : version ≠ first := by
        intro same
        simp [← same, new] at inFirst
      have notSecond : version ≠ second := by
        intro same
        simp [← same, new] at inSecond
      rw [untouched notFirst] at inFirst
      rw [untouched notSecond] at inSecond
      exact agrees.shared name isMatched first second _ _ inFirst inSecond
  · intro name isMatched holder lacking a found filled absent
    rw [refreshes.field name isMatched] at found absent
    rw [Option.map_eq_none_iff] at absent
    obtain ⟨old, held, rfl⟩ := Option.map_eq_some_iff.1 found
    cases new : (resource.withValue version x).fieldOf kind version name with
    | some v =>
      -- The new value is reported by the copy from the version itself.
      have different : version ≠ lacking := by
        intro same
        simp [← same, new] at absent
      obtain ⟨direction, source, rfl⟩ := Direction.exists_between different
      subst source
      rw [new, Option.getD_some] at filled
      rw [Option.getD_some]
      refine ⟨direction, rfl, ?_, refreshes.reported name isMatched direction v rfl absent new
        filled⟩
      rw [refreshes.field name isMatched, new]
      simp
    | none =>
      -- An old value is still reported where it was, since this copy fills other slots.
      have notHolder : version ≠ holder := by
        intro same
        simp [← same, new] at held
      rw [untouched notHolder] at held
      rw [new, Option.getD_none] at filled
      rw [Option.getD_none]
      obtain ⟨direction, ends, present, listed⟩ := agrees.reported name isMatched holder lacking old
        held filled ((fieldOf_eq_none_iff records _ _ lacking name).1 absent)
      have different : direction.source ≠ version := by
        intro source
        rw [source] at present
        exact present ((fieldOf_eq_none_iff records _ _ version name).1 new)
      refine ⟨direction, ends, ?_, ?_⟩
      · exact mt (fieldOf_eq_none_iff records _ _ _ name).1 present
      · rw [refreshes.otherSlots direction different]
        exact listed

/-- A resource whose fields and slots are those of another agrees as well as that one. -/
theorem Agrees.of_same {resource other : Resource R σ} (agrees : resource.Agrees kind)
    (fields : ∀ name, kind.isMatched name = true → ∀ version,
      other.fieldOf kind version name = resource.fieldOf kind version name)
    (slots : other.slots = resource.slots) : other.Agrees kind := by
  -- Agreement speaks of fields and slots alone, and both are the same.
  constructor
  · intro name isMatched version version' a b
    rw [fields name isMatched, fields name isMatched]
    exact agrees.shared name isMatched version version' a b
  · intro name isMatched version lacking a found filled absent
    rw [fields name isMatched] at found absent
    obtain ⟨direction, ends, present, listed⟩ :=
      agrees.reported name isMatched version lacking a found filled absent
    exact ⟨direction, ends, by rwa [fields name isMatched], slots ▸ listed⟩

/-- Recording absences in several versions leaves all ordinary fields as they were. -/
theorem fieldOf_recordAll (records : kind.OfRecords sorts) (resource : Resource R σ)
    (versions : List Version) {name : String} (ordinary : isBookkeeping name = false)
    (version : Version) :
    (recordAll kind resource versions).1.fieldOf kind version name =
      resource.fieldOf kind version name := by
  induction versions generalizing resource with
  | nil => rfl
  | cons first rest ih =>
    rw [recordAll]
    split
    · rfl
    · next filled recorded =>
      rw [ih]
      -- Absences are recorded in the bookkeeping lists of one version at a time.
      have texts := fun list member => ((records.matching first first).lists list member).1
      have kept := Policy.fieldAt_recordAbsences (records.record first) texts _ recorded ordinary
      by_cases same : first = version
      · subst same
        simpa only [fieldOf, Triple.get_set_self] using kept
      · simp only [fieldOf, Triple.get_set_of_ne _ same]

/-- Freezing leaves all ordinary fields as they were, whether it succeeds or fails. -/
theorem fieldOf_freeze (records : kind.OfRecords sorts) (resource : Resource R σ) {name : String}
    (ordinary : isBookkeeping name = false) (version : Version) :
    (freeze kind resource).1.fieldOf kind version name = resource.fieldOf kind version name := by
  -- Either no version can be chosen, or absences are recorded in the two others.
  unfold freeze
  split
  · rfl
  · next chosen _ =>
    have kept := fieldOf_recordAll records resource chosen.others ordinary version
    split <;> next filled => rw [filled] at kept; exact kept

/-- A call that succeeds propagates the value that it has set, unless it freezes. -/
theorem perform_of_ok {resource : Resource R σ} {call : Call R}
    (success : (perform kind resource call).2 = .ok ()) :
    (∃ version start, entered? kind resource call = some (version, start)) ∨ call = .freeze := by
  -- A call that ends before any copy has failed, unless it freezes.
  cases call with
  | edit version change =>
    cases checked : (kind.policy version).check version (kind.codec version)
        (change (resource.values.get version)) with
    | error fault => simp [perform, edit, checked] at success
    | ok => exact .inl ⟨_, _, by simp only [entered?, checked]; rfl⟩
  | replace version x =>
    cases copied : (resource.ownCopy kind version x).result with
    | error fault =>
      unfold ownCopy at copied
      simp [perform, replace, copied] at success
    | ok value => exact .inl ⟨_, _, by simp only [entered?, copied]; rfl⟩
  | freeze => exact .inr rfl

/-- A run of calls that all succeed leaves what each successful call leaves. -/
theorem performAll_induction {motive : Resource R σ → Prop}
    (step : ∀ resource call, motive resource → (perform kind resource call).2 = .ok () →
      motive (perform kind resource call).1)
    {resource : Resource R σ} (start : motive resource) {calls : List (Call R)}
    (succeed : AllSucceed kind resource calls) : motive (performAll kind resource calls) := by
  induction calls generalizing resource with
  | nil => exact start
  | cons call rest ih => exact ih (step resource call start succeed.1) succeed.2

/-- Every call that succeeds leaves the versions in agreement. -/
theorem Agrees.perform (records : kind.OfRecords sorts) {resource : Resource R σ}
    (agrees : resource.Agrees kind) {call : Call R}
    (success : (Resource.perform kind resource call).2 = .ok ()) :
    (Resource.perform kind resource call).1.Agrees kind := by
  rcases perform_of_ok success with ⟨version, start, entered⟩ | rfl
  · obtain ⟨_, ⟨x, rfl⟩, performed⟩ := entered?_cases entered
    rw [performed] at success ⊢
    exact agrees.of_refreshes records (refreshes_of_ok records success)
  · -- Freezing writes bookkeeping lists alone, which are not matched.
    refine agrees.of_same (fun name isMatched version => ?_) (slots_freeze kind resource)
    exact fieldOf_freeze records resource (isMatched_iff.1 isMatched).1 version

/-- A new resource is blank in every field but its name. -/
theorem fieldOf_new (records : kind.OfRecords sorts) {id : Identity} {state : σ}
    {created : Resource R σ} (made : new kind id state = .ok created) (version : Version)
    (name : String) :
    created.fieldOf kind version name =
      if name = nameField then some (.string id.name)
      else (Keyed.get? name (sorts version)).map FieldSort.blank := by
  -- Each version is a blank record that has been named after the identity.
  have named := (new_eq_ok made).1 version
  rw [fieldOf, (records.record version).fieldAt_withName (records.named version) named]
  split
  · rfl
  · cases declared : Keyed.get? name (sorts version) with
    | none => exact (records.record version).undeclared _ name declared
    | some sort => exact (records.record version).blank name sort declared

/-- The versions of a new resource agree. -/
theorem agrees_new (records : kind.OfRecords sorts) {id : Identity} {state : σ}
    {created : Resource R σ} (made : new kind id state = .ok created) : created.Agrees kind := by
  constructor
  · intro name _ version other a b
    rw [fieldOf_new records made, fieldOf_new records made]
    split
    · exact fun foundFirst foundSecond => Option.some.inj (foundFirst.symm.trans foundSecond)
    · intro foundFirst foundSecond
      obtain ⟨sort, first, rfl⟩ := Option.map_eq_some_iff.1 foundFirst
      obtain ⟨sort', second, rfl⟩ := Option.map_eq_some_iff.1 foundSecond
      exact congrArg FieldSort.blank ((records.matching version other).same _
        (Keyed.mem_of_get? first) _ (Keyed.mem_of_get? second) rfl)
  · intro name _ version lacking a found filled absent
    rw [fieldOf_new records made] at found absent
    -- Only the name is filled, and no version lacks it.
    split at found
    · next called => simp [called] at absent
    · obtain ⟨sort, _, rfl⟩ := Option.map_eq_some_iff.1 found
      simp [FieldSort.blank_isBlank] at filled

/-- The version that represents the resource holds every value that some version holds. -/
theorem Agrees.of_representative {resource : Resource R σ} (agrees : resource.Agrees kind)
    {chosen : Version} (represents : resource.representative = .ok chosen) {version : Version}
    {name : String} {v : Value} (isMatched : kind.isMatched name = true)
    (found : resource.fieldOf kind version name = some v) (filled : v.isBlank = false) :
    resource.fieldOf kind chosen name = some v := by
  cases held : resource.fieldOf kind chosen name with
  | some w => rw [agrees.shared name isMatched chosen version w v held found]
  | none =>
    -- A value that the chosen version lacks would stand in a slot that leads into it.
    obtain ⟨direction, ends, _, listed⟩ :=
      agrees.reported name isMatched version chosen v found filled held
    have empty := (shortfall_eq_none_iff resource chosen).1
      (shortfall_of_representative represents) direction ends
    simp [empty] at listed

end Records

end Resource

end Triversion
