import Triversion.Catalog
import Triversion.Proofs.Policy.Effect
import Triversion.Proofs.Resource.Freezing

/-!
The audit after recording.

The audit reports the absent fields of exactly those structs that the policy check looks at and
that have something under the names of both lists. Recording fills only lists that are sequences,
so afterwards the audit has nothing to report but the fields of structs whose lists are none.
-/

namespace Triversion.Policy

/-- A field without information that counts and that no list of its struct mentions. -/
structure Unrecorded (policy : Policy) (path : Path) (fields : Fields) (name : String)
    (v : Value) : Prop where
  member : (name, v) ∈ fields
  counts : policy.Counts path name
  blank : v.isBlank = true
  plain : v.isObject = false
  unlisted : ∀ list ∈ bookkeepingLists, name ∉ Value.listedNames fields list

variable {policy : Policy} {path route : Path} {fields : Fields} {name : String} {v : Value}

section Report

/-- What the audit reports of one field of a struct: the field itself, then what is inside it. -/
def reportsOf (policy : Policy) (path : Path) (tracked : Bool) (recorded : List String)
    (entry : String × Value) : List Path :=
  let here := path.field entry.1
  if isBookkeeping entry.1 || policy.roleAt here = .system then []
  else
    (if tracked && !isExempt (policy.roleAt here) && entry.2.isBlank && !entry.2.isObject &&
      !recorded.contains entry.1 then [here] else []) ++ policy.unrecordedIn here entry.2

/-- The fields of a struct are reported one by one. -/
theorem unrecordedInFields_eq (policy : Policy) (path : Path) (tracked : Bool)
    (recorded : List String) (entries : Fields) :
    policy.unrecordedInFields path tracked recorded entries =
      entries.flatMap (policy.reportsOf path tracked recorded) := by
  induction entries with
  | nil => rfl
  | cons entry rest ih =>
    obtain ⟨name, v⟩ := entry
    rw [unrecordedInFields, List.flatMap_cons, reportsOf, ih]
    split <;> rfl

/-- The items of a sequence are reported one by one, each at its position. -/
theorem unrecordedInItems_eq (policy : Policy) (path : Path) (i : Nat) (items : List Value) :
    policy.unrecordedInItems path i items =
      (items.zipIdx i).flatMap fun item => policy.unrecordedIn (path.index item.2) item.1 := by
  induction items generalizing i with
  | nil => rfl
  | cons first rest ih => rw [unrecordedInItems, List.zipIdx_cons, List.flatMap_cons, ih]

/-- What is reported of a sequence is reported of one of its items. -/
theorem mem_unrecordedIn_array {items : List Value} :
    route ∈ policy.unrecordedIn path (.array items) ↔
      ∃ i v, items[i]? = some v ∧ route ∈ policy.unrecordedIn (path.index i) v := by
  rw [unrecordedIn, unrecordedInItems_eq, List.mem_flatMap]
  constructor
  · rintro ⟨⟨v, i⟩, member, reported⟩
    exact ⟨i, v, List.mem_zipIdx_iff_getElem?.1 member, reported⟩
  · rintro ⟨i, v, found, reported⟩
    exact ⟨(v, i), List.mem_zipIdx_iff_getElem?.2 found, reported⟩

/-- The conditions under which the audit reports a visited field for itself. -/
theorem reported_iff {entry : String × Value} (member : entry ∈ fields)
    (visited : policy.Visited path entry) :
    (hasLists fields && !isExempt (policy.roleAt (path.field entry.1)) && entry.2.isBlank &&
        !entry.2.isObject && !(Value.listedNames fields nullFields ++
          Value.listedNames fields forceSendFields).contains entry.1) = true ↔
      hasLists fields = true ∧ policy.Unrecorded path fields entry.1 entry.2 := by
  simp only [Bool.and_eq_true, Bool.not_eq_true', List.contains_eq_mem, decide_eq_false_iff_not,
    List.mem_append, not_or, isExempt, Bool.or_eq_false_iff]
  constructor
  · rintro ⟨⟨⟨⟨lists, settable, zeroable⟩, blank⟩, plain⟩, unlisted⟩
    refine ⟨lists, member, ⟨visited.1, visited.2, settable, zeroable⟩, blank, plain, ?_⟩
    simpa [bookkeepingLists] using unlisted
  · rintro ⟨lists, _, counts, blank, plain, unlisted⟩
    refine ⟨⟨⟨⟨lists, counts.settable, counts.zeroable⟩, blank⟩, plain⟩, ?_⟩
    simpa [bookkeepingLists] using unlisted

/-- What is reported of a struct is a field that no list mentions, or is inside a visited field. -/
theorem mem_unrecordedIn_object :
    route ∈ policy.unrecordedIn path (.object fields) ↔
      (hasLists fields = true ∧ ∃ name v, policy.Unrecorded path fields name v ∧
        route = path.field name) ∨
      ∃ entry ∈ fields, policy.Visited path entry ∧
        route ∈ policy.unrecordedIn (path.field entry.1) entry.2 := by
  rw [unrecordedIn, unrecordedInFields_eq, List.mem_flatMap]
  constructor
  · rintro ⟨entry, member, reported⟩
    -- A visited field is reported for itself or for something inside it.
    rw [reportsOf] at reported
    split at reported
    · simp at reported
    · next visited =>
      have visited : policy.Visited path entry := by simpa [Visited] using visited
      rcases List.mem_append.1 reported with own | inside
      · split at own
        · next here =>
          obtain ⟨lists, lacking⟩ := (reported_iff member visited).1 here
          exact .inl ⟨lists, _, _, lacking, List.mem_singleton.1 own⟩
        · simp at own
      · exact .inr ⟨entry, member, visited, inside⟩
  · rintro (⟨lists, name, v, lacking, rfl⟩ | ⟨entry, member, visited, inside⟩)
    · have visited : policy.Visited path (name, v) :=
        ⟨lacking.counts.ordinary, lacking.counts.visible⟩
      refine ⟨(name, v), lacking.member, ?_⟩
      rw [reportsOf, if_neg (by simpa [Visited] using visited),
        if_pos ((reported_iff lacking.member visited).2 ⟨lists, lacking⟩)]
      simp
    · refine ⟨entry, member, ?_⟩
      rw [reportsOf, if_neg (by simpa [Visited] using visited)]
      exact List.mem_append_right _ inside

/--
The audit is exact: it reports a field if and only if the field counts, carries no information, is
no struct and is mentioned by neither list of a struct that is looked at and has both.
-/
theorem mem_unrecordedIn_iff :
    route ∈ policy.unrecordedIn path v ↔
      ∃ place fields, policy.StructAt path v place fields ∧ hasLists fields = true ∧
        ∃ name w, policy.Unrecorded place fields name w ∧ route = place.field name := by
  constructor
  · intro reported
    -- The induction follows the report from the whole down to the struct that lacks the field.
    induction v using Value.inductionOn generalizing path with
    | array items ih =>
      obtain ⟨i, item, found, reported⟩ := mem_unrecordedIn_array.1 reported
      obtain ⟨place, fields, inside, lacking⟩ := ih item (List.mem_of_getElem? found) reported
      exact ⟨place, fields, .item found inside, lacking⟩
    | object fields ih =>
      rcases mem_unrecordedIn_object.1 reported with own | ⟨entry, member, visited, reported⟩
      · exact ⟨path, fields, .here, own⟩
      · obtain ⟨place, inner, inside, lacking⟩ := ih entry member reported
        exact ⟨place, inner, .field member visited.1 visited.2 inside, lacking⟩
    | _ => simp [unrecordedIn] at reported
  · rintro ⟨place, fields, inside, lacking⟩
    induction inside with
    | here => exact mem_unrecordedIn_object.2 (.inl lacking)
    | item found _ ih => exact mem_unrecordedIn_array.2 ⟨_, _, found, ih lacking⟩
    | field member ordinary visible _ ih =>
      exact mem_unrecordedIn_object.2 (.inr ⟨_, member, ⟨ordinary, visible⟩, ih lacking⟩)

end Report

/-- Recording leaves a struct all its lists, whatever they are. -/
theorem hasLists_recordedFields (policy : Policy) (path : Path) (fields : Fields) :
    hasLists (policy.recordedFields path fields) = hasLists fields := by
  cases tracked : isTracked fields with
  | false =>
    simp [hasLists, Keyed.has, get?_recordedFields_of_list policy path tracked, isBookkeeping,
      bookkeepingLists]
  | true =>
    have before := isSome_of_isTracked tracked
    simp [bookkeepingLists] at before
    simp [hasLists, Keyed.has, recordedFields, tracked, before]

/-- After recording, fields are unrecorded where lists are kept that are no sequences. -/
theorem unrecorded_recordedFields_iff (sorted : Keyed.Ascending fields) :
    (∃ w, policy.Unrecorded path (policy.recordedFields path fields) name w) ↔
      isTracked fields = false ∧ ∃ v, policy.Unrecorded path fields name v := by
  obtain ⟨nulls, forced⟩ := mem_listedNames_recordedFields policy path sorted.nodup name
  constructor
  · rintro ⟨w, member, counts, blank, plain, unlisted⟩
    obtain ⟨v, before, rfl⟩ :=
      (mem_recordedFields_iff policy path sorted counts.ordinary).1 member
    rw [if_neg counts.visible] at blank plain
    rw [isObject_recordIn] at plain
    rw [isBlank_recordIn_of_plain policy _ plain] at blank
    cases tracked : isTracked fields with
    | false =>
      refine ⟨rfl, v, before, counts, blank, plain, ?_⟩
      simpa [bookkeepingLists, nulls, forced, tracked] using unlisted
    | true =>
      -- A list that is kept has come to mention the field.
      have found := Keyed.get?_of_mem sorted.nodup before
      exfalso
      cases isNull : v.isNull with
      | true =>
        have holds : policy.HoldsNull path fields name :=
          ⟨counts, by rw [found, Value.isNull_iff.1 isNull]⟩
        exact unlisted nullFields nullFields_mem (nulls.2 (.inr ⟨tracked, holds⟩))
      | false =>
        have holds : policy.HoldsZero path fields name :=
          ⟨counts, v, found, by simp [Value.isZero, blank, isNull, plain]⟩
        exact unlisted forceSendFields forceSendFields_mem (forced.2 (.inr ⟨tracked, holds⟩))
  · rintro ⟨untracked, v, member, counts, blank, plain, unlisted⟩
    refine ⟨policy.recordIn (path.field name) v, ?_, counts, ?_, ?_, ?_⟩
    · exact mem_recordedFields policy path sorted member ⟨counts.ordinary, counts.visible⟩
    · rwa [isBlank_recordIn_of_plain policy _ plain]
    · rwa [isObject_recordIn]
    · simpa [bookkeepingLists, nulls, forced, untracked] using unlisted

/-- What is reported after recording is lacking in a struct that does not keep two sequences. -/
theorem mem_unrecordedIn_recordIn_iff (formed : v.WellFormed) :
    route ∈ policy.unrecordedIn path (policy.recordIn path v) ↔
      ∃ place fields, policy.StructAt path v place fields ∧ hasLists fields = true ∧
        isTracked fields = false ∧
        ∃ name w, policy.Unrecorded place fields name w ∧ route = place.field name := by
  rw [mem_unrecordedIn_iff]
  constructor
  · rintro ⟨place, _, inside, lists, name, w, lacking, rfl⟩
    -- It was lacking already in the struct that stood there before.
    obtain ⟨fields, before, rfl⟩ := (structAt_recordIn_iff formed).1 inside
    rw [hasLists_recordedFields] at lists
    have sorted := (Value.wellFormed_object.1 (before.wellFormed formed)).1
    obtain ⟨untracked, w, lacking⟩ := (unrecorded_recordedFields_iff sorted).1 ⟨w, lacking⟩
    exact ⟨place, fields, before, lists, untracked, name, w, lacking, rfl⟩
  · rintro ⟨place, fields, before, lists, untracked, name, w, lacking, rfl⟩
    have sorted := (Value.wellFormed_object.1 (before.wellFormed formed)).1
    obtain ⟨w, lacking⟩ := (unrecorded_recordedFields_iff sorted).2 ⟨untracked, w, lacking⟩
    refine ⟨place, _, (structAt_recordIn_iff formed).2 ⟨fields, before, rfl⟩, ?_, name, w,
      lacking, rfl⟩
    rwa [hasLists_recordedFields]

/--
After recording, the audit reports only what structs lack that keep something else than sequences.

Where the result is written as it was recorded, the audit answers, and it reports exactly the fields
that count, carry no information and stand in no list of a struct that has something under both
names but not two sequences. A value without such structs has nothing left to report.
-/
theorem audit_reports_untracked_structs_alone {α : Type} (policy : Policy) (codec : Codec α)
    {x filled : α} (formed : ∀ v, codec.encode x = .ok v → v.WellFormed)
    (recorded : policy.recordAbsences codec x = .ok filled)
    (returns : ∀ v, codec.encode x = .ok v →
      codec.encode filled = .ok (policy.recordIn Path.root v)) :
    ∃ v routes, codec.encode x = .ok v ∧ policy.unrecorded codec filled = .ok routes ∧
      (∀ route, route ∈ routes ↔
        ∃ place fields, policy.StructAt Path.root v place fields ∧ hasLists fields = true ∧
          isTracked fields = false ∧
          ∃ name w, policy.Unrecorded place fields name w ∧ route = place.field name) ∧
      ((∀ place fields, policy.StructAt Path.root v place fields → hasLists fields = true →
        isTracked fields = true) → routes = []) := by
  obtain ⟨v, written, -⟩ := recordAbsences_eq_ok_iff.1 recorded
  have answers : policy.unrecorded codec filled =
      .ok (policy.unrecordedIn Path.root (policy.recordIn Path.root v)) := by
    simp only [unrecorded, Codec.write, returns v written]
  refine ⟨v, _, written, answers, fun _ => mem_unrecordedIn_recordIn_iff (formed v written),
    fun tracked => List.eq_nil_iff_forall_not_mem.2 fun route reported => ?_⟩
  -- A report would be about a struct that does not keep two sequences.
  obtain ⟨place, fields, inside, lists, untracked, -⟩ :=
    (mem_unrecordedIn_recordIn_iff (formed v written)).1 reported
  rw [tracked place fields inside lists] at untracked
  contradiction

/-- A backend without information. -/
def blankBackend : Value :=
  .object [("Address", .string ""), ("ForceSendFields", .array []), ("NullFields", .array []),
    ("Port", .whole 0)]

/-- A service with a blank backend, of which the given fields are said to be null. -/
def serviceWithBlankBackend (nulls : List String) : Value :=
  .object [("Backend", blankBackend), ("Description", .string ""), ("ForceSendFields", .array []),
    ("LegacyMode", .string ""), ("Name", .string ""), ("NullFields", .strings nulls),
    ("Ports", .array []), ("SelfLink", .string "")]

/-- Inside a service with a blank backend there are these two structs. -/
theorem structAt_serviceWithBlankBackend {nulls : List String} {place : Path}
    (inside : policy.StructAt Path.root (serviceWithBlankBackend nulls) place fields) :
    (place = Path.root ∧ .object fields = serviceWithBlankBackend nulls) ∨
      (place = Path.root.field "Backend" ∧ .object fields = blankBackend) := by
  -- Only a struct or a sequence with items has structs inside.
  cases inside with
  | here => exact .inl ⟨rfl, rfl⟩
  | field member ordinary _ inside =>
    simp only [List.mem_cons, Prod.mk.injEq, List.not_mem_nil, or_false] at member
    rcases member with ⟨rfl, rfl⟩ | ⟨-, rfl⟩ | ⟨-, rfl⟩ | ⟨-, rfl⟩ | ⟨-, rfl⟩ | ⟨rfl, rfl⟩ |
      ⟨-, rfl⟩ | ⟨-, rfl⟩
    case inl =>
      cases inside with
      | here => exact .inr ⟨rfl, rfl⟩
      | field member _ _ inside =>
        simp only [List.mem_cons, Prod.mk.injEq, List.not_mem_nil, or_false] at member
        rcases member with ⟨-, rfl⟩ | ⟨-, rfl⟩ | ⟨-, rfl⟩ | ⟨-, rfl⟩ <;>
          cases inside <;> contradiction
    -- A list is not looked into, and the other fields hold neither structs nor items.
    all_goals cases inside <;> contradiction

/-- A policy under which links come from the server. -/
private def linked : Policy :=
  initial.declare (Path.root.field "SelfLink") .outputOnly

/-- Once recorded, a service has nothing left to report, inside its backend either. -/
theorem audit_reports_untracked_structs_alone_of_service :
    ∃ filled, linked.recordAbsences (Catalog.stableService.codec "StableService")
        (serviceWithBlankBackend ["Ports"]) = .ok filled ∧
      linked.unrecorded (Catalog.stableService.codec "StableService")
        (serviceWithBlankBackend ["Ports"]) = .ok
          [(Path.root.field "Backend").field "Address", (Path.root.field "Backend").field "Port",
            Path.root.field "Description", Path.root.field "LegacyMode",
            Path.root.field "Name"] ∧
      linked.unrecorded (Catalog.stableService.codec "StableService") filled = .ok [] := by
  have formed : (serviceWithBlankBackend ["Ports"]).WellFormed := by decide
  have recorded : linked.recordAbsences (Catalog.stableService.codec "StableService")
      (serviceWithBlankBackend ["Ports"]) =
        .ok (linked.recordIn Path.root (serviceWithBlankBackend ["Ports"])) := by rfl
  obtain ⟨v, routes, written, answered, -, clean⟩ :=
    audit_reports_untracked_structs_alone linked _
      (fun v written => by
        obtain rfl : serviceWithBlankBackend ["Ports"] = v := Except.ok.inj written
        exact formed) recorded
      (fun v written => by
        obtain rfl : serviceWithBlankBackend ["Ports"] = v := Except.ok.inj written
        rfl)
  obtain rfl : serviceWithBlankBackend ["Ports"] = v := Except.ok.inj written
  refine ⟨_, recorded, by rfl, ?_⟩
  rw [answered, clean fun place fields inside _ => ?_]
  -- Both the service and its backend keep sequences.
  rcases structAt_serviceWithBlankBackend inside with ⟨-, same⟩ | ⟨-, same⟩ <;>
    obtain rfl := Value.object.inj same <;> rfl

/-- One of the two lists is null. -/
private def halfListed : Value :=
  .object [("ForceSendFields", .null), ("Name", .string ""), ("NullFields", .array [])]

/-- Not every recorded value has nothing left to report: a list that is null is not filled. -/
theorem not_every_recorded_value_audits_clean :
    ¬ ∀ (α : Type) (policy : Policy) (codec : Codec α) (x filled : α) (v : Value),
      codec.encode x = .ok v → v.WellFormed → policy.recordAbsences codec x = .ok filled →
      codec.encode filled = .ok (policy.recordIn Path.root v) →
      policy.unrecorded codec filled = .ok [] := by
  intro always
  have clean := always Value initial (Catalog.optionalForced.codec "MetaNull") halfListed
    halfListed halfListed rfl (by decide) (by rfl) (by rfl)
  -- The empty name is reported after recording as before it.
  have reported : initial.unrecorded (Catalog.optionalForced.codec "MetaNull") halfListed =
      .ok [Path.root.field "Name"] := by rfl
  rw [reported] at clean
  exact absurd (Except.ok.inj clean) (by decide)

end Triversion.Policy
