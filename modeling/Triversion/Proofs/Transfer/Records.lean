import Triversion.Proofs.Compute.Record
import Triversion.Proofs.Transfer.Forgotten

/-!
Copies between records.

Such a copy always fits. Every field that both records have ends as in the source, every other
field of the destination stays, and every field that only the source has is reported.
-/

namespace Triversion

/-- A part that is still to be visited is visited in the end. -/
theorem collectMaps_of_mem {roundTrip : Value → Option Value} {whole : Value}
    {part : Path × Value} {pending : List (Path × Value)} (listed : part ∈ pending) :
    ∀ path ∈ (visit roundTrip whole part.1 part.2).1,
      path ∈ collectMaps roundTrip whole pending := by
  -- The induction follows the worklist, whose first part is the one that is visited next.
  induction pending using collectMaps.induct roundTrip whole with
  | case1 => simp at listed
  | case2 path v pending found ih =>
    intro route member
    rw [collectMaps, List.mem_append]
    rcases List.mem_cons.1 listed with rfl | later
    · exact .inl member
    · -- What is found inside the first part is put behind the parts that wait already.
      exact .inr (ih (List.mem_append_right _ later) route member)

/-- A field that comes back empty is one of the maps. -/
theorem mapPaths_of_field {roundTrip : Value → Option Value} {fields : Fields} {name : String}
    {entries : Fields} (found : Keyed.get? name fields = some (.object entries))
    (filled : entries ≠ [])
    (empties : comesBackEmpty roundTrip (.object fields) [.field name] = true) :
    [Segment.field name] ∈ mapPaths roundTrip fields := by
  -- The fields at the root are where the worklist starts.
  have listed : ([.field name], .object entries) ∈ entriesAt .field Path.root fields :=
    List.mem_map.2 ⟨_, Keyed.mem_of_get? found, rfl⟩
  refine collectMaps_of_mem listed _ ?_
  cases entries with
  | nil => exact absurd rfl filled
  | cons entry rest => simp [visit, empties, Path.withoutPositions, Segment.isIndex]

/-- Nothing is excluded inside texts. -/
theorem stripItems_strings (exclusions : Exclusions) (path : Path) (names : List String) (i : Nat) :
    exclusions.stripItems path i (names.map .string) = names.map .string := by
  induction names generalizing i with
  | nil => rfl
  | cons name rest ih =>
    rw [List.map_cons, Exclusions.stripItems, ih, Exclusions.strip]

/-- A text replaces a text. -/
theorem mergeScalar_string (rules : MergeRules) (path : Path) (there given : String) :
    (mergeScalar rules (.string there) path (.string given)).result = .string given := by
  simp [mergeScalar, Value.isNull, Value.scalarFits]

/-- Texts replace texts one by one. -/
theorem mergeItems_strings (rules : MergeRules) (path : Path) (given : List String) (i : Nat) :
    (mergeItems rules (.string "") path i (given.map .string)).result = given.map .string := by
  induction given generalizing i with
  | nil => rfl
  | cons first rest ih =>
    rw [List.map_cons, mergeItems, mergeInto, ih, mergeScalar_string]

namespace FieldSort

/-- Outside of labels there is nothing inside a value that could be excluded. -/
theorem strip_of_holds {sort : FieldSort} {v : Value} (holds : sort.Holds v)
    (notLabels : sort ≠ .labels) (exclusions : Exclusions) (path : Path) :
    exclusions.strip path v = v := by
  -- Texts and flags have no fields, and the items of a list of texts have none either.
  cases sort with
  | text =>
    obtain ⟨s, rfl⟩ := holds
    rfl
  | flag =>
    obtain ⟨b, rfl⟩ := holds
    rfl
  | texts =>
    obtain ⟨names, rfl⟩ := holds
    exact congrArg Value.array (stripItems_strings exclusions path names 0)
  | labels => exact absurd rfl notLabels

/-- Merging a value into a value of the same sort gives the source value. -/
theorem mergeInto_of_holds {sort : FieldSort} {there given : Value}
    (thereHolds : sort.Holds there) (givenHolds : sort.Holds given) (rules : MergeRules)
    (path : Path)
    (known : ∀ entries, there = .object entries → entries ≠ [] → isMapAt rules.maps path = true) :
    (mergeInto rules there path given).result = given := by
  cases sort with
  | text =>
    obtain ⟨old, rfl⟩ := thereHolds
    obtain ⟨new, rfl⟩ := givenHolds
    exact mergeScalar_string rules path old new
  | flag =>
    obtain ⟨old, rfl⟩ := thereHolds
    obtain ⟨new, rfl⟩ := givenHolds
    simp [mergeInto, mergeScalar, Value.isNull, Value.scalarFits]
  | texts =>
    obtain ⟨old, rfl⟩ := thereHolds
    obtain ⟨new, rfl⟩ := givenHolds
    cases old with
    -- Without an item the texts are taken as they are, else one by one.
    | nil => exact congrArg Value.array (stripItems_strings rules.exclusions path new 0)
    | cons first rest =>
      exact congrArg Value.array (mergeItems_strings rules path new 0)
  | labels =>
    obtain ⟨old, rfl⟩ := thereHolds
    obtain ⟨new, rfl⟩ := givenHolds
    obtain ⟨old, sorted⟩ := old
    cases old with
    | nil =>
      simp only [Labels.toValue, List.map_nil, mergeInto, wholeEntries, List.map_map,
        Function.comp_def, Exclusions.strip]
    | cons first rest =>
      -- As a struct, old labels would stay beside the new ones.
      have isMap := known _ rfl (by simp)
      simp only [Labels.toValue, List.map_cons, mergeInto, isMap, if_true, mergeEntries_eq,
        Value.blank, List.map_map, Function.comp_def, mergeScalar_string]

end FieldSort

/--
Sorts of a source and of a destination that go together.

A field of both has one sort, labels are a field of both, and so are the bookkeeping lists.
-/
structure Sorts.Matching (given there : Sorts) : Prop where
  same : ∀ entry ∈ given, ∀ other ∈ there, entry.1 = other.1 → entry.2 = other.2
  labels : ∀ entry ∈ given, entry.2 = .labels → (Keyed.get? entry.1 there).isSome
  lists : ∀ list ∈ bookkeepingLists,
    Keyed.get? list given = some .texts ∧ Keyed.get? list there = some .texts

/-- A merged bookkeeping list is a list of texts again. -/
theorem Fits.mergeList {sorts : Sorts} {fields given : Fields} {list : String}
    (fits : Fits sorts fields) (known : List String)
    (texts : ∃ v, Keyed.get? list given = some v ∧ FieldSort.texts.Holds v)
    (sorted : Keyed.get? list sorts = some .texts) :
    Fits sorts (mergeList known given fields list) := by
  -- The kept names are some of the texts that the source lists.
  obtain ⟨_, found, names, rfl⟩ := texts
  obtain ⟨v, there, _⟩ := fits list .texts sorted
  simp only [Triversion.mergeList, Keyed.has, there, Option.isSome_some, if_true, found,
    Value.strings]
  refine fits.put sorted ⟨names.filter fun name => known.contains name && !isBookkeeping name, ?_⟩
  simp only [keptNames, List.filter_map, Value.strings, Function.comp_def]

/-- Labels that are emptied come back empty, so they count as a map. -/
theorem Codec.IsRecord.comesBackEmpty_of_labels {δ : Type} {codec : Codec δ} {sorts : Sorts}
    (record : codec.IsRecord sorts) {name : String}
    (sorted : Keyed.get? name sorts = some .labels) (y : δ) :
    comesBackEmpty codec.roundTrip (.object (codec.fields y)) [.field name] = true := by
  -- A record without labels is accepted like any other, and written without labels again.
  have fits : Fits sorts (Keyed.modify name (fun _ => .object []) (codec.fields y)) := by
    intro other sort declared
    obtain ⟨v, found, holds⟩ := record.fits y other sort declared
    by_cases same : name = other
    · subst same
      obtain rfl := Option.some.inj (sorted.symm.trans declared)
      rw [Keyed.get?_modify_self, found]
      exact ⟨_, rfl, Labels.empty, rfl⟩
    · exact ⟨v, (Keyed.get?_modify_of_ne same _ _).trans found, holds⟩
  obtain ⟨z, taken, settled⟩ := record.rebuilds _ fits
  obtain ⟨v, found, _⟩ := record.fits y name .labels sorted
  have empty : Keyed.get? name (codec.fields z) = some (.object []) := by
    have := settled name (by simp [sorted])
    rwa [Keyed.get?_modify_self, found] at this
  simp [comesBackEmpty, Value.modifyAt, Value.modifyStep, Segment.name?, Codec.roundTrip, taken,
    record.encode, Except.toOption, Value.at?, Value.step?, empty]

section Copy

variable {σ δ : Type} {source : Codec σ} {codec : Codec δ} {given there : Sorts}

/-- The rules of a copy into a record, whose labels count as a map. -/
def recordRules (exclusions : Exclusions) (codec : Codec δ) (y : δ) : MergeRules :=
  ⟨exclusions, mapPaths codec.roundTrip (codec.fields y)⟩

/-- A source field replaces a destination field of its sort, and enters where there is none. -/
theorem mergeField_of_records (sourceRecord : source.IsRecord given)
    (destRecord : codec.IsRecord there) (matching : given.Matching there)
    (exclusions : Exclusions) {x : σ} (y : δ) {name : String} {v : Value}
    (found : source.fieldAt name x = some v) :
    (mergeField (recordRules exclusions codec y) Path.root (codec.fieldAt name y) name v).result =
      v := by
  obtain ⟨sort, sorted, holds⟩ := sourceRecord.holds_of_fieldAt found
  have listed := Keyed.mem_of_get? sorted
  cases present : codec.fieldAt name y with
  | none =>
    refine FieldSort.strip_of_holds holds ?_ exclusions _
    -- Labels are never new to the destination.
    intro same
    subst same
    obtain ⟨other, declared⟩ := Option.isSome_iff_exists.1 (matching.labels _ listed rfl)
    obtain ⟨w, held, _⟩ := destRecord.fits y name other declared
    exact absurd (held.symm.trans present) (by simp)
  | some w =>
    obtain ⟨other, declared, holdsThere⟩ := destRecord.holds_of_fieldAt present
    obtain rfl := matching.same _ listed _ (Keyed.mem_of_get? declared) rfl
    -- Only labels are written as objects, and these are known to be a map.
    refine FieldSort.mergeInto_of_holds holdsThere holds _ _ ?_
    intro entries same filled
    subst same
    have labels : sort = .labels := by
      cases sort <;> simp_all [FieldSort.Holds, Value.strings]
    subst labels
    have known := mapPaths_of_field present filled
      (destRecord.comesBackEmpty_of_labels declared y)
    simpa [recordRules, isMapAt, Path.field, Path.root, Path.withoutPositions,
      Segment.isIndex] using known

/-- Every field that a merge of records takes ends as in the source, and every other one stays. -/
theorem get?_mergeFields_of_records (sourceRecord : source.IsRecord given)
    (destRecord : codec.IsRecord there) (matching : given.Matching there)
    (exclusions : Exclusions) (x : σ) (y : δ) (name : String) :
    Keyed.get? name (mergeFields (recordRules exclusions codec y) Path.root (codec.fields y)
        (source.fields x)).result =
      if (recordRules exclusions codec y).skips Path.root name then codec.fieldAt name y
      else (source.fieldAt name x).or (codec.fieldAt name y) := by
  -- A taken field is merged with what the destination has, which gives the source value.
  rw [get?_mergeFields _ _ (sourceRecord.ascending x).nodup, get?_takenFields]
  by_cases skipped : (recordRules exclusions codec y).skips Path.root name = true
  · rw [if_pos skipped, if_pos skipped]
    rfl
  · rw [if_neg skipped, if_neg skipped]
    change ((source.fieldAt name x).map _).or (codec.fieldAt name y) = _
    cases found : source.fieldAt name x with
    | none => rfl
    | some v =>
      exact congrArg some
        (mergeField_of_records sourceRecord destRecord matching exclusions y found)

/-- A merged record has a value of its sort under every name of the destination. -/
theorem fits_merge_of_records (sourceRecord : source.IsRecord given)
    (destRecord : codec.IsRecord there) (matching : given.Matching there)
    (exclusions : Exclusions) (x : σ) (y : δ) :
    Fits there (Transfer.merge exclusions codec (codec.fields y) (source.fields x)).result := by
  have merged : Fits there (mergeFields (recordRules exclusions codec y) Path.root
      (codec.fields y) (source.fields x)).result := by
    intro name sort declared
    rw [get?_mergeFields_of_records sourceRecord destRecord matching]
    have stays := destRecord.fits y name sort declared
    -- A field that is taken has the sort that the source has for it, which is the same.
    split
    · exact stays
    · cases found : source.fieldAt name x with
      | none => exact stays
      | some v =>
        obtain ⟨other, sorted, holds⟩ := sourceRecord.holds_of_fieldAt found
        have listed := Keyed.mem_of_get? sorted
        obtain rfl := matching.same _ listed _ (Keyed.mem_of_get? declared) rfl
        exact ⟨v, rfl, holds⟩
  -- Both lists are lists of texts on either side, so merging them changes no sort.
  have nulls := matching.lists nullFields nullFields_mem
  have forced := matching.lists forceSendFields forceSendFields_mem
  exact (merged.mergeList _ (sourceRecord.fits x _ _ nulls.1) nulls.2).mergeList _
    (sourceRecord.fits x _ _ forced.1) forced.2

/-- An ordinary field of a merged record is taken unless it is excluded. -/
theorem get?_merge_of_records (sourceRecord : source.IsRecord given)
    (destRecord : codec.IsRecord there) (matching : given.Matching there)
    (exclusions : Exclusions) (x : σ) (y : δ) {name : String}
    (ordinary : isBookkeeping name = false) :
    Keyed.get? name (Transfer.merge exclusions codec (codec.fields y) (source.fields x)).result =
      if exclusions.excludes name [.field name] then codec.fieldAt name y
      else (source.fieldAt name x).or (codec.fieldAt name y) := by
  -- The bookkeeping lists are merged last, and the field is neither of them.
  have merged := get?_mergeFields_of_records sourceRecord destRecord matching exclusions x y name
  simp only [MergeRules.skips, ordinary, Bool.false_or, Path.field, Path.root,
    List.nil_append] at merged
  exact (get?_mergeLists ordinary _ _ _).trans merged

/-- A field of the candidate that the rebuilt destination lacks is lost. -/
theorem forgotten_of_field {maps : List Path} {fields kept : Fields} {name : String} {v : Value}
    (found : Keyed.get? name fields = some v) (gone : Keyed.get? name kept = none)
    (ordinary : isBookkeeping name = false) (filled : v.isBlank = false) :
    ⟨[.field name], v⟩ ∈ forgotten maps (.object kept) Path.root (.object fields) := by
  -- The root is never a map, so the entry is reported as a field.
  have looked := forgottenInFields_of_mem maps (isMapAt maps Path.root) kept Path.root
    (Keyed.mem_of_get? found) ordinary
  refine looked ?_
  simp [gone, lossOf, filled, entryStep, isMapAt, Path.root]

/-- A copy of a record into a record succeeds, takes what it can, and reports what it cannot. -/
theorem copy_of_records (sourceRecord : source.IsRecord given)
    (destRecord : codec.IsRecord there) (matching : given.Matching there)
    (exclusions : Exclusions) (x : σ) (y : δ) :
    ∃ copied losses, Transfer.copy exclusions source codec x y = ⟨.ok copied, losses⟩ ∧
      (∀ name, isBookkeeping name = false →
        codec.fieldAt name copied = (codec.fieldAt name y).map fun old =>
          if exclusions.excludes name [.field name] then old
          else (source.fieldAt name x).getD old) ∧
      ∀ name v, isBookkeeping name = false → exclusions.excludes name [.field name] = false →
        codec.fieldAt name y = none → source.fieldAt name x = some v → v.isBlank = false →
        ⟨[.field name], v⟩ ∈ losses := by
  -- What is merged fits, so that it is rebuilt at once and nothing has to be taken back.
  obtain ⟨copied, taken, settled⟩ := destRecord.rebuilds _
    (fits_merge_of_records sourceRecord destRecord matching exclusions x y)
  have fields := fun (name : String) (ordinary : isBookkeeping name = false) =>
    get?_merge_of_records sourceRecord destRecord matching exclusions x y ordinary
  refine ⟨copied,
    (Transfer.merge exclusions codec (codec.fields y) (source.fields x)).journal.losses ++
      forgotten (Transfer.knownMaps codec (codec.fields y)
          (Transfer.merge exclusions codec (codec.fields y) (source.fields x)).journal)
        (.object (codec.fields copied)) Path.root
        (.object (Transfer.merge exclusions codec (codec.fields y) (source.fields x)).result),
    ?_, ?_, ?_⟩
  · simp only [Transfer.copy, Codec.write, sourceRecord.encode, destRecord.encode,
      Transfer.copyFields, Transfer.candidate, taken, Option.isSome_some, if_true, Codec.rebuild]
  · intro name ordinary
    cases held : codec.fieldAt name y with
    | none => exact destRecord.fieldAt_eq_none.2 (destRecord.fieldAt_eq_none.1 held)
    | some old =>
      have declared : Keyed.get? name there ≠ none := by
        intro undeclared
        simp [destRecord.undeclared y name undeclared] at held
      rw [settled name declared, fields name ordinary, held]
      split
      · rfl
      · cases source.fieldAt name x <;> rfl
  · -- A field that only the source has enters the candidate, and is gone after the rebuild.
    intro name v ordinary included absent found filled
    refine List.mem_append_right _ (forgotten_of_field ?_ ?_ ordinary filled)
    · simp [fields name ordinary, included, found]
    · exact destRecord.fieldAt_eq_none.2 (destRecord.fieldAt_eq_none.1 absent)

end Copy

end Triversion
