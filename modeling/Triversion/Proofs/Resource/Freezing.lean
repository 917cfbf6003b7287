import Triversion.Catalog
import Triversion.Proofs.Policy.Filling
import Triversion.Proofs.Resource.Call

/-!
What freezing leaves behind.

Freezing fills the bookkeeping lists of the two versions that do not represent the resource.
Everything else stays, and a resource that has been frozen is not changed by freezing it again.
-/

namespace Triversion

/-- Recording succeeds if the representation is written and what is recorded can be read. -/
theorem Policy.recordAbsences_eq_ok_iff {α : Type} {policy : Policy} {codec : Codec α}
    {x filled : α} : policy.recordAbsences codec x = .ok filled ↔
      ∃ v, codec.encode x = .ok v ∧ codec.decode (policy.recordIn Path.root v) = some filled := by
  simp only [recordAbsences, Codec.write, Codec.rebuild]
  cases codec.encode x with
  | error reason => simp
  | ok v =>
    simp only [Except.ok.injEq, exists_eq_left']
    cases codec.decode (policy.recordIn Path.root v) <;> simp

/-- Recording fails as writing and reading do. -/
theorem Policy.recordAbsences_error {α : Type} {policy : Policy} {codec : Codec α} {x : α}
    {fault : Fault} (failed : policy.recordAbsences codec x = .error fault) :
    ∃ copyFault, fault = .copy copyFault := by
  simp only [recordAbsences] at failed
  split at failed
  · exact ⟨_, (Except.error.inj failed).symm⟩
  · split at failed
    · exact ⟨_, (Except.error.inj failed).symm⟩
    · contradiction

namespace Resource

variable {R : Version → Type} {σ : Type} {kind : Kind R σ} {resource after : Resource R σ}

/-- Some versions have been rebuilt with their absences recorded, and nothing else has changed. -/
structure Filled (kind : Kind R σ) (versions : List Version) (before after : Resource R σ) :
    Prop where
  id : after.id = before.id
  slots : after.slots = before.slots
  state : after.state = before.state
  others : ∀ version, version ∉ versions →
    after.values.get version = before.values.get version
  filled : ∀ version ∈ versions, ∃ v,
    (kind.codec version).encode (before.values.get version) = .ok v ∧
      (kind.codec version).decode ((kind.policy version).recordIn Path.root v) =
        some (after.values.get version)

/-- Nothing is filled exactly if nothing has changed. -/
theorem filled_nil_iff : Filled kind [] resource after ↔ resource = after := by
  constructor
  · rintro ⟨id, slots, state, others, -⟩
    obtain ⟨_, _, _, _⟩ := resource
    obtain ⟨_, _, _, _⟩ := after
    -- A resource is made of the four parts that are unchanged.
    have values := Triple.ext_get fun version => others version List.not_mem_nil
    simp_all
  · rintro rfl
    exact ⟨rfl, rfl, rfl, fun _ _ => rfl, nofun⟩

/-- Versions are filled one after another, each from what it was at the beginning. -/
theorem filled_cons_iff {version : Version} {rest : List Version} (fresh : version ∉ rest)
    {filled : R version} (recorded : (kind.policy version).recordAbsences (kind.codec version)
      (resource.values.get version) = .ok filled) :
    Filled kind (version :: rest) resource after ↔
      Filled kind rest { resource with values := resource.values.set version filled } after := by
  constructor
  · intro all
    refine ⟨all.id, all.slots, all.state, fun other absent => ?_, fun other member => ?_⟩
    · by_cases same : version = other
      · subst same
        -- Recording has one result, and the version holds it in the end.
        obtain ⟨v, written, read⟩ := all.filled version List.mem_cons_self
        have result := recorded.symm.trans (Policy.recordAbsences_eq_ok_iff.2 ⟨v, written, read⟩)
        rw [Triple.get_set_self]
        exact (Except.ok.inj result).symm
      · -- The remaining versions are the same before and after the first step.
        rw [Triple.get_set_of_ne _ same]
        exact all.others other (by simp [absent, Ne.symm same])
    · have different : version ≠ other := fun same => fresh (same ▸ member)
      rw [Triple.get_set_of_ne _ different]
      exact all.filled other (List.mem_cons_of_mem _ member)
  · intro later
    refine ⟨later.id, later.slots, later.state, fun other absent => ?_, fun other member => ?_⟩
    · obtain ⟨different, absent⟩ := by simpa using absent
      rw [later.others other absent, Triple.get_set_of_ne _ (Ne.symm different)]
    · rcases List.mem_cons.1 member with rfl | inside
      · rw [later.others other fresh, Triple.get_set_self]
        exact Policy.recordAbsences_eq_ok_iff.1 recorded
      · have different : version ≠ other := fun same => fresh (same ▸ inside)
        have there := later.filled other inside
        rwa [Triple.get_set_of_ne _ different] at there

/-- Recording the absences of several versions succeeds exactly if it fills them. -/
theorem recordAll_eq_ok_iff {versions : List Version} (distinct : versions.Nodup) :
    recordAll kind resource versions = (after, .ok ()) ↔ Filled kind versions resource after := by
  induction versions generalizing resource with
  | nil => simp [recordAll, filled_nil_iff]
  | cons version rest ih =>
    obtain ⟨fresh, distinct⟩ := List.nodup_cons.1 distinct
    rw [recordAll]
    split
    · next fault failed =>
      constructor
      · simp
      · intro all
        have there := Policy.recordAbsences_eq_ok_iff.2 (all.filled version List.mem_cons_self)
        rw [failed] at there
        contradiction
    · next filled recorded => rw [ih distinct, filled_cons_iff fresh recorded]

/-- Recording the absences of several versions fails as writing and reading them does. -/
theorem recordAll_error {versions : List Version} {fault : Fault}
    (failed : (recordAll kind resource versions).2 = .error fault) :
    ∃ copyFault, fault = .copy copyFault := by
  induction versions generalizing resource with
  | nil => simp [recordAll] at failed
  | cons version rest ih =>
    rw [recordAll] at failed
    split at failed
    · next first => exact Policy.recordAbsences_error (Except.error.inj failed ▸ first)
    · exact ih failed

/-- The representing version is chosen by the slots alone. -/
theorem representative_congr {other : Resource R σ} (same : resource.slots = other.slots) :
    resource.representative = other.representative := by
  simp only [representative, shortfall, missing, same]

/-- Each version has two others. -/
theorem nodup_others (version : Version) : version.others.Nodup := by
  cases version <;> decide

/-- Freezing succeeds exactly if a version represents the resource and the others can be filled. -/
theorem freeze_eq_ok_iff {frozen : Frozen R} :
    freeze kind resource = (after, .ok frozen) ↔
      resource.representative = .ok frozen.version ∧
        Filled kind frozen.version.others resource after ∧
        frozen.id = after.id ∧ frozen.values = after.values := by
  unfold freeze
  split
  · next failed => simp [failed]
  · next version represents =>
    rw [represents]
    split
    · next failed =>
      constructor
      · simp
      · rintro ⟨chosen, filled, -⟩
        obtain rfl := Except.ok.inj chosen
        rw [(recordAll_eq_ok_iff (nodup_others _)).2 filled] at failed
        simp at failed
    · next recorded done =>
      constructor
      · -- Success answers with the chosen version and the values after recording.
        intro same
        obtain ⟨rfl, rfl⟩ := by simpa using same
        exact ⟨rfl, (recordAll_eq_ok_iff (nodup_others _)).1 done, rfl, rfl⟩
      · rintro ⟨chosen, filled, id, values⟩
        obtain rfl := Except.ok.inj chosen
        rw [(recordAll_eq_ok_iff (nodup_others _)).2 filled] at done
        obtain ⟨rfl, -⟩ := Prod.mk.inj done
        obtain ⟨_, _, _⟩ := frozen
        simp_all

/-- Freezing is ambiguous exactly if the resource is. -/
theorem freeze_ambiguous_iff {stable alpha beta : Option Shortfall} :
    (freeze kind resource).2 = .error (.ambiguous stable alpha beta) ↔
      resource.representative = .error (.ambiguous stable alpha beta) := by
  unfold freeze
  split
  · next failed => simp [failed]
  · next version represents =>
    rw [represents]
    split
    · next failed =>
      -- What stops the recording is never an ambiguity.
      obtain ⟨_, rfl⟩ := recordAll_error (congrArg Prod.snd failed)
      simp
    · simp

/-- A resource without a representing version is not changed by freezing it. -/
theorem freeze_of_not_representative {fault : Fault}
    (failed : resource.representative = .error fault) :
    freeze kind resource = (resource, .error fault) := by
  simp only [freeze, failed]

/--
Freezing changes what the bookkeeping lists of the two other versions hold, and nothing else.

It is ambiguous exactly if no version represents the resource, which is then left as it was. If it
succeeds it answers with the representing version, and each of the two others has been rebuilt from
what recording absences made of it. As soon as these write what they were rebuilt from, all
versions are written as before except for their lists, and freezing once more changes nothing.
-/
theorem freeze_changes_lists_only (kind : Kind R σ) (resource : Resource R σ)
    (formed : ∀ version v, (kind.codec version).encode (resource.values.get version) = .ok v →
      v.WellFormed) :
    (∀ stable alpha beta,
      (freeze kind resource).2 = .error (.ambiguous stable alpha beta) ↔
        resource.representative = .error (.ambiguous stable alpha beta)) ∧
    (∀ fault, resource.representative = .error fault →
      freeze kind resource = (resource, .error fault)) ∧
    ∀ after frozen, freeze kind resource = (after, .ok frozen) →
      (resource.representative = .ok frozen.version ∧
        Filled kind frozen.version.others resource after ∧
        frozen.id = after.id ∧ frozen.values = after.values) ∧
      ((∀ version ∈ frozen.version.others, ∀ v,
          (kind.codec version).encode (resource.values.get version) = .ok v →
          (kind.codec version).encode (after.values.get version) =
            .ok ((kind.policy version).recordIn Path.root v)) →
        (∀ version v, (kind.codec version).encode (resource.values.get version) = .ok v →
          ∃ w, (kind.codec version).encode (after.values.get version) = .ok w ∧
            w.dataOnly = v.dataOnly) ∧
        freeze kind after = (after, .ok frozen)) := by
  refine ⟨fun _ _ _ => freeze_ambiguous_iff, fun _ => freeze_of_not_representative,
    fun after frozen done => ?_⟩
  obtain ⟨represents, filled, id, values⟩ := freeze_eq_ok_iff.1 done
  refine ⟨⟨represents, filled, id, values⟩, fun returns => ⟨fun version v written => ?_, ?_⟩⟩
  · by_cases other : version ∈ frozen.version.others
    · exact ⟨_, returns version other v written,
        Policy.dataOnly_recordIn _ _ (formed version v written)⟩
    · exact ⟨v, by rw [filled.others version other, written], rfl⟩
  · -- The second time each of the two is rebuilt from the same as the first time.
    have again : Filled kind frozen.version.others after after := by
      refine ⟨rfl, rfl, rfl, fun _ _ => rfl, fun version member => ?_⟩
      obtain ⟨v, written, read⟩ := filled.filled version member
      refine ⟨_, returns version member v written, ?_⟩
      rw [Policy.recordIn_recordIn _ _ (formed version v written), read]
    have same : after.representative = .ok frozen.version :=
      (representative_congr filled.slots).trans represents
    exact freeze_eq_ok_iff.2 ⟨same, again, id, values⟩

/-- Three backends without a port, none of which says so. -/
def unfrozenBackends : Resource (fun _ => Value) Unit :=
  let backend : Value := .object [("Address", .string "a"), ("ForceSendFields", .array []),
    ("NullFields", .array []), ("Port", .whole 0)]
  ⟨⟨"project", "backends", "b", .global⟩, ⟨backend, backend, backend⟩, fun _ => [], ()⟩

/-- Freezing backends lists the missing port in alpha and beta, and never again. -/
theorem freeze_changes_lists_only_of_backends :
    let kind : Kind (fun _ => Value) Unit := .plain fun _ => Catalog.backend.codec "Backend"
    let after := (freeze kind unfrozenBackends).1
    ∃ frozen, freeze kind unfrozenBackends = (after, .ok frozen) ∧ frozen.version = .stable ∧
      after.values.alpha = .object [("Address", .string "a"),
        ("ForceSendFields", .strings ["Port"]), ("NullFields", .array []), ("Port", .whole 0)] ∧
      freeze kind after = (after, .ok frozen) := by
  intro kind after
  let filled : Value := .object [("Address", .string "a"),
    ("ForceSendFields", .strings ["Port"]), ("NullFields", .array []), ("Port", .whole 0)]
  have first : freeze kind unfrozenBackends = (after, .ok ⟨unfrozenBackends.id, .stable,
      ⟨unfrozenBackends.values.stable, filled, filled⟩⟩) := by rfl
  refine ⟨_, first, rfl, rfl, ?_⟩
  refine ((freeze_changes_lists_only kind unfrozenBackends ?_).2.2 _ _ first).2 ?_ |>.2
  · intro version v written
    obtain rfl : unfrozenBackends.values.get version = v := Except.ok.inj written
    cases version <;> exact ⟨by decide, trivial, trivial, trivial, trivial, trivial⟩
  · intro version other v written
    obtain rfl : unfrozenBackends.values.get version = v := Except.ok.inj written
    cases version with
    | stable => contradiction
    | alpha => rfl
    | beta => rfl

/-- Recording the absences of several versions fails at the first that cannot be filled. -/
theorem recordAll_eq_error_iff {versions : List Version} (distinct : versions.Nodup)
    {fault : Fault} :
    recordAll kind resource versions = (after, .error fault) ↔
      ∃ done failing rest, versions = done ++ failing :: rest ∧
        Filled kind done resource after ∧
        (kind.policy failing).recordAbsences (kind.codec failing) (resource.values.get failing) =
          .error fault := by
  induction versions generalizing resource with
  | nil => simp [recordAll]
  | cons version rest ih =>
    obtain ⟨fresh, distinct⟩ := List.nodup_cons.1 distinct
    rw [recordAll]
    split
    · next first failed =>
      -- The first version fails, so none is in front of the one that fails.
      constructor
      · intro same
        obtain ⟨rfl, fails⟩ := Prod.mk.inj same
        exact ⟨[], version, rest, rfl, filled_nil_iff.2 rfl, Except.error.inj fails ▸ failed⟩
      · rintro ⟨done, failing, later, split, filled, fails⟩
        cases done with
        | nil =>
          obtain ⟨rfl, rfl⟩ := List.cons.inj split
          obtain rfl := Except.error.inj (failed.symm.trans fails)
          rw [filled_nil_iff.1 filled]
        | cons head others =>
          obtain ⟨rfl, _⟩ := List.cons.inj split
          have there := Policy.recordAbsences_eq_ok_iff.2
            (filled.filled version List.mem_cons_self)
          rw [failed] at there
          contradiction
    · next filled recorded =>
      rw [ih distinct]
      -- What fails later is another version, which the first one leaves as it was.
      have same : ∀ failing ∈ rest, ({ resource with
          values := resource.values.set version filled } : Resource R σ).values.get failing =
            resource.values.get failing := fun failing member =>
        Triple.get_set_of_ne _ (fun equal : version = failing => fresh (equal ▸ member)) _
      constructor
      · rintro ⟨done, failing, later, rfl, filledDone, fails⟩
        have apart : version ∉ done := fun inside => fresh (List.mem_append_left _ inside)
        rw [same failing (by simp)] at fails
        exact ⟨version :: done, failing, later, rfl, (filled_cons_iff apart recorded).2 filledDone,
          fails⟩
      · rintro ⟨done, failing, later, split, filledDone, fails⟩
        cases done with
        | nil =>
          obtain ⟨rfl, _⟩ := List.cons.inj split
          rw [recorded] at fails
          contradiction
        | cons head others =>
          obtain ⟨rfl, rfl⟩ := List.cons.inj split
          have apart : version ∉ others := fun inside => fresh (List.mem_append_left _ inside)
          refine ⟨others, failing, later, rfl, (filled_cons_iff apart recorded).1 filledDone, ?_⟩
          rw [same failing (by simp)]
          exact fails

/--
Freezing fails without a trace if no version represents the resource, and otherwise at the first of
the two other versions that cannot be filled.

The versions in front of that one stay filled; the identity, the slots and all other versions are
as before.
-/
theorem freeze_fails_in_order (kind : Kind R σ) (resource after : Resource R σ) (fault : Fault) :
    freeze kind resource = (after, .error fault) ↔
      (resource.representative = .error fault ∧ after = resource) ∨
        ∃ version done failing rest, resource.representative = .ok version ∧
          version.others = done ++ failing :: rest ∧ Filled kind done resource after ∧
          (kind.policy failing).recordAbsences (kind.codec failing)
            (resource.values.get failing) = .error fault := by
  unfold freeze
  split
  · next failed => simp [failed, eq_comm, and_comm]
  · next version represents =>
    have exactly := @recordAll_eq_error_iff _ _ kind resource after _ (nodup_others version) fault
    simp only [represents, reduceCtorEq, false_and, false_or, Except.ok.injEq]
    constructor
    · intro ended
      split at ended
      · next failed =>
        obtain ⟨rfl, same⟩ := Prod.mk.inj ended
        obtain rfl := Except.error.inj same
        obtain ⟨done, failing, rest, split, filled, fails⟩ := exactly.1 failed
        exact ⟨version, done, failing, rest, rfl, split, filled, fails⟩
      · simp at ended
    · rintro ⟨_, done, failing, rest, rfl, split, filled, fails⟩
      rw [exactly.2 ⟨done, failing, rest, split, filled, fails⟩]

/-- Three types of which beta alone has a ratio, and alpha alone keeps bookkeeping lists. -/
def ratioCodec (version : Version) : Codec Value :=
  Shape.codec "Ratio" <| Shape.struct <| Shape.field "Name" .string ::
    match version with
    | .stable => []
    | .alpha => Shape.field "Size" (.unsigned 32) :: Catalog.lists
    | .beta => [Shape.field "Ratio" .float]

/--
Not every failed freeze leaves the representations as they were.

A ratio that is no number is written as null, which no ratio is rebuilt from. So an edit of beta
that makes it so succeeds, and freezing fails at beta, after the lists of alpha have been filled.
-/
theorem not_every_failed_freeze_is_undone :
    ∃ created, Resource.new (.plain ratioCodec) ⟨"project", "ratios", "r", .global⟩ () =
        .ok created ∧
      let edited := edit (.plain ratioCodec) created .beta
        fun ratio => Value.setAt (Path.root.field "Ratio") .null ratio
      let frozen := freeze (.plain ratioCodec) edited.1
      edited.2 = .ok () ∧
      frozen.2 = .error (.copy (.notRebuilt "Ratio")) ∧
      edited.1.values.alpha = .object [("ForceSendFields", .array []), ("Name", .string "r"),
        ("NullFields", .array []), ("Size", .whole 0)] ∧
      frozen.1.values.alpha = .object [("ForceSendFields", .strings ["Size"]),
        ("Name", .string "r"), ("NullFields", .array []), ("Size", .whole 0)] :=
  ⟨_, rfl, rfl, rfl, rfl, rfl⟩

end Resource

end Triversion
