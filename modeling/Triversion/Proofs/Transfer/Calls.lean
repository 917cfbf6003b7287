import Triversion.Proofs.Transfer.Writes

/-!
The calls that a merge is made of.

A merge of two values calls itself for their parts. A call takes the source as it is, or resets the
destination, or is made of further calls at routes of their own.
-/

namespace Triversion

/-- A source value that meets what the destination has at a route. -/
structure MergeCall where
  there : Value
  path : Path
  given : Value

namespace MergeCall

/-- What the merge makes of a call. -/
def merged (rules : MergeRules) (call : MergeCall) : Merged Value :=
  mergeInto rules call.there call.path call.given

/-- Both values of a call are well formed. -/
structure Formed (call : MergeCall) : Prop where
  there : call.there.WellFormed
  given : call.given.WellFormed

/-- A call that takes the source as one value, with what it takes and how that is taken back. -/
inductive Takes (rules : MergeRules) : MergeCall → Value → Reversal → Prop where
  | clear {there : Value} {path : Path} (filled : there.isNull = false) :
    Takes rules ⟨there, path, .null⟩ .null (.restore there.blank)
  | scalar {there given : Value} {path : Path} (fits : there.scalarFits given = true) :
    Takes rules ⟨there, path, given⟩ given (.restore there.blank)
  | whole {path : Path} {given : Value} (filled : given.isNull = false) :
    Takes rules ⟨.null, path, given⟩ (rules.exclusions.strip path given) (.restore .null)
  | items {path : Path} {given : List Value} :
    Takes rules ⟨.array [], path, .array given⟩
      (.array (rules.exclusions.stripItems path 0 given)) .emptySequence
  | entries {path : Path} {given : Fields} :
    Takes rules ⟨.object [], path, .object given⟩
      (.object (wholeEntries rules.exclusions path given)) .emptyMap

/-- A call that leaves nothing but the blank of the destination. -/
structure Resets (rules : MergeRules) (call : MergeCall) : Prop where
  result : (call.merged rules).result = call.there.blank
  writes : (call.merged rules).journal.writes = []

/-- A call that is made of calls for parts of the source. -/
inductive Composes (rules : MergeRules) : MergeCall → Prop where
  | struct {fields given : Fields} {path : Path} (filled : fields ≠ [])
    (notMap : isMapAt rules.maps path = false) :
    Composes rules ⟨.object fields, path, .object given⟩
  | map {fields given : Fields} {path : Path} (filled : fields ≠ [])
    (isMap : isMapAt rules.maps path = true) :
    Composes rules ⟨.object fields, path, .object given⟩
  | sequence {items given : List Value} {path : Path} (filled : items ≠ []) :
    Composes rules ⟨.array items, path, .array given⟩

/-- A call that another call makes for the part of its source behind a step. -/
inductive Makes (rules : MergeRules) : MergeCall → Segment → MergeCall → Prop where
  | field {fields given : Fields} {path : Path} {name : String} {old v : Value}
    (notMap : isMapAt rules.maps path = false) (taken : (name, v) ∈ takenFields rules path given)
    (found : Keyed.get? name fields = some old) :
    Makes rules ⟨.object fields, path, .object given⟩ (.field name) ⟨old, path.field name, v⟩
  | entry {name : String} {first : Value} {others given : Fields} {path : Path} {k : String}
    {v : Value} (isMap : isMapAt rules.maps path = true) (member : (k, v) ∈ given) :
    Makes rules ⟨.object ((name, first) :: others), path, .object given⟩ (.key k)
      ⟨first.blank, path.key k, v⟩
  | item {first : Value} {others given : List Value} {path : Path} {i : Nat} {v : Value}
    (found : given[i]? = some v) :
    Makes rules ⟨.array (first :: others), path, .array given⟩ (.index i)
      ⟨first.blank, path.index i, v⟩

/-- A write that a call makes of its own for a field that the destination does not have. -/
inductive Adds (rules : MergeRules) : MergeCall → Write → Prop where
  | field {fields given : Fields} {path : Path} {name : String} {v : Value} (filled : fields ≠ [])
    (notMap : isMapAt rules.maps path = false) (taken : (name, v) ∈ takenFields rules path given)
    (missing : Keyed.get? name fields = none) :
    Adds rules ⟨.object fields, path, .object given⟩ ⟨path.field name, .remove⟩

variable {rules : MergeRules} {call next : MergeCall} {segment : Segment}

theorem merged_struct {fields given : Fields} {path : Path} (filled : fields ≠ [])
    (notMap : isMapAt rules.maps path = false) :
    merged rules ⟨.object fields, path, .object given⟩ =
      (mergeObjects rules path fields given).map .object := by
  obtain ⟨⟨name, first⟩, others, rfl⟩ := List.exists_cons_of_ne_nil filled
  simp only [merged, mergeInto, notMap, Bool.false_eq_true, if_false]
  rfl

theorem merged_map {name : String} {first : Value} {others given : Fields} {path : Path}
    (isMap : isMapAt rules.maps path = true) :
    merged rules ⟨.object ((name, first) :: others), path, .object given⟩ =
      ⟨.object (mergeEntries rules first.blank path given).result,
        .mapAt path ++ (mergeEntries rules first.blank path given).journal⟩ := by
  simp only [merged, mergeInto, isMap, if_true]

theorem merged_sequence {first : Value} {others given : List Value} {path : Path} :
    merged rules ⟨.array (first :: others), path, .array given⟩ =
      (mergeItems rules first.blank path 0 given).map .array := by
  rw [merged, mergeInto]

/-- A call that takes its source writes it once, at its own route. -/
theorem Takes.merged {w : Value} {reversal : Reversal} (takes : Takes rules call w reversal) :
    (call.merged rules).result = w ∧
      (call.merged rules).journal.writes = [⟨call.path, reversal⟩] := by
  cases takes with
  | clear filled => simp [MergeCall.merged, mergeInto, clearTo, filled, Journal.wrote]
  | scalar fits =>
    rw [MergeCall.merged, mergeInto_of_scalarFits rules _ fits]
    exact ⟨rfl, rfl⟩
  | @whole path given filled =>
    cases given with
    | null => simp [Value.isNull] at filled
    | _ => exact ⟨rfl, rfl⟩
  | items => exact ⟨rfl, rfl⟩
  | entries => exact ⟨rfl, rfl⟩

/-- A call takes its source as one value, or resets the destination, or is made of calls. -/
theorem cases (rules : MergeRules) (call : MergeCall) :
    (∃ w reversal, Takes rules call w reversal) ∨ Resets rules call ∨ Composes rules call := by
  obtain ⟨there, path, given⟩ := call
  cases nullThere : there.isNull with
  | true =>
    obtain rfl := Value.isNull_iff.1 nullThere
    cases null : given.isNull with
    | true =>
      -- Null meets null: nothing is written, and null is its own blank.
      obtain rfl := Value.isNull_iff.1 null
      exact .inr (.inl ⟨rfl, rfl⟩)
    | false => exact .inl ⟨_, _, .whole null⟩
  | false =>
    -- A value of another kind than the destination's is rejected.
    have scalar : ∀ given, mergeInto rules there path given = mergeScalar rules there path given →
        (∃ w reversal, Takes rules ⟨there, path, given⟩ w reversal) ∨
          Resets rules ⟨there, path, given⟩ ∨ Composes rules ⟨there, path, given⟩ := by
      intro given same
      cases fits : there.scalarFits given with
      | true => exact .inl ⟨_, _, .scalar fits⟩
      | false =>
        refine .inr (.inl ⟨?_, ?_⟩) <;>
          simp [merged, same, mergeScalar, nullThere, fits, rejectAt, Journal.lost]
    cases given with
    | null => exact .inl ⟨_, _, .clear nullThere⟩
    | bool b | number n | string s => exact scalar _ (by rw [mergeInto])
    | array given =>
      -- Only containers of one kind are merged part by part.
      cases there with
      | null => simp [Value.isNull] at nullThere
      | array items =>
        cases items with
        | nil => exact .inl ⟨_, _, .items⟩
        | cons first others => exact .inr (.inr (.sequence (List.cons_ne_nil _ _)))
      | _ => exact .inr (.inl ⟨rfl, rfl⟩)
    | object given =>
      cases there with
      | null => simp [Value.isNull] at nullThere
      | object fields =>
        cases fields with
        | nil => exact .inl ⟨_, _, .entries⟩
        | cons first others =>
          cases isMap : isMapAt rules.maps path with
          | true => exact .inr (.inr (.map (List.cons_ne_nil _ _) isMap))
          | false => exact .inr (.inr (.struct (List.cons_ne_nil _ _) isMap))
      | _ => exact .inr (.inl ⟨rfl, rfl⟩)

/-- The merge of a call is sound. -/
theorem Formed.sound (formed : call.Formed) (rules : MergeRules) :
    (call.merged rules).Sound call.path :=
  sound_mergeInto rules formed.given call.path formed.there

namespace Makes

/-- A call goes on at the part of its source behind the step. -/
theorem path_eq (makes : Makes rules call segment next) : next.path = call.path ++ [segment] := by
  cases makes <;> rfl

theorem composes (makes : Makes rules call segment next) : Composes rules call := by
  cases makes with
  | field notMap taken found =>
    exact .struct (by rintro rfl; simp [Keyed.get?] at found) notMap
  | entry isMap member => exact .map (List.cons_ne_nil _ _) isMap
  | item found => exact .sequence (List.cons_ne_nil _ _)

theorem given (makes : Makes rules call segment next) (formed : call.Formed) :
    call.given.step? segment = some next.given := by
  cases makes with
  | field notMap taken found =>
    exact Keyed.get?_of_mem formed.given.distinct (mem_takenFields.1 taken).1
  | entry isMap member => exact Keyed.get?_of_mem formed.given.distinct member
  | item found => exact found

theorem formed (makes : Makes rules call segment next) (formed : call.Formed) : next.Formed := by
  refine ⟨?_, formed.given.step? (makes.given formed)⟩
  cases makes with
  | field notMap taken found => exact formed.there.of_get? found
  | entry isMap member =>
    exact ((Value.wellFormed_object.1 formed.there).2 _ List.mem_cons_self).blank
  | item found => exact (Value.wellFormed_array.1 formed.there _ List.mem_cons_self).blank

/-- What a call merges stands in the call that makes it. -/
theorem result (makes : Makes rules call segment next) (formed : call.Formed) :
    (call.merged rules).result.step? segment = some (next.merged rules).result := by
  cases makes with
  | @field fields given path name old v notMap taken found =>
    -- A taken field is an ordinary one, so it is looked up among the merged fields.
    have distinct := formed.given.distinct
    have filled : fields ≠ [] := by rintro rfl; simp [Keyed.get?] at found
    have listed := Keyed.get?_of_mem (takenFields_nodup rules path distinct) taken
    rw [merged_struct filled notMap]
    change Keyed.get? name (mergeObjects rules path fields given).result = _
    rw [get?_mergeObjects rules path distinct fields (ordinary_of_taken taken), listed]
    simp only [Option.map_some, Option.some_or, mergeField, found]
    rfl
  | @entry name first others given path k v isMap member =>
    rw [merged_map isMap]
    change Keyed.get? k (mergeEntries rules first.blank path given).result = _
    -- All entries are merged into the blank of the first one.
    rw [mergeEntries_eq, Keyed.get?_map fun k v => (mergeInto rules _ (path.key k) v).result,
      Keyed.get?_of_mem formed.given.distinct member]
    rfl
  | @item first others given path i v found =>
    rw [merged_sequence]
    change (mergeItems rules first.blank path 0 given).result[i]? = _
    rw [mergeItems_eq, List.getElem?_map, List.getElem?_zipIdx, found, Option.map_some,
      Option.map_some, Nat.zero_add]
    rfl

end Makes

/-- Every item of a merged sequence is merged by a call. -/
theorem exists_makes_item {items given : List Value} {path : Path} (filled : items ≠ []) {i : Nat}
    {item : Value}
    (leads : (merged rules ⟨.array items, path, .array given⟩).result.step? (.index i) =
      some item) :
    ∃ next, Makes rules ⟨.array items, path, .array given⟩ (.index i) next := by
  obtain ⟨first, others, rfl⟩ := List.exists_cons_of_ne_nil filled
  rw [merged_sequence, mergeItems_eq] at leads
  obtain ⟨⟨v, j⟩, found, _⟩ := Option.map_eq_some_iff.1 ((List.getElem?_map ..).symm.trans leads)
  -- The merged items stand at the positions of the source's items.
  rw [List.getElem?_zipIdx] at found
  obtain ⟨v, found, _⟩ := Option.map_eq_some_iff.1 found
  exact ⟨_, .item found⟩

/-- Every entry of a merged map is merged by a call. -/
theorem exists_makes_entry {fields given : Fields} {path : Path} (filled : fields ≠ [])
    (isMap : isMapAt rules.maps path = true) {name : String} {v : Value}
    (leads : (merged rules ⟨.object fields, path, .object given⟩).result.step? (.field name) =
      some v) :
    ∃ next, Makes rules ⟨.object fields, path, .object given⟩ (.key name) next := by
  obtain ⟨⟨other, first⟩, others, rfl⟩ := List.exists_cons_of_ne_nil filled
  rw [merged_map isMap, mergeEntries_eq] at leads
  change Keyed.get? name (given.map _) = some v at leads
  rw [Keyed.get?_map fun k v => (mergeInto rules _ (path.key k) v).result] at leads
  obtain ⟨w, found, _⟩ := Option.map_eq_some_iff.1 leads
  exact ⟨_, .entry isMap (Keyed.mem_of_get? found)⟩

/-- The writes of a call that is made of calls are theirs, or add a field. -/
theorem Composes.mem_writes (composes : Composes rules call) (formed : call.Formed)
    {write : Write} : write ∈ (call.merged rules).journal.writes ↔
      (∃ segment next, Makes rules call segment next ∧
        write ∈ (next.merged rules).journal.writes) ∨ Adds rules call write := by
  cases composes with
  | @struct fields given path filled notMap =>
    have distinct := formed.given.distinct
    rw [merged_struct filled notMap]
    simp only [Merged.map, journal_mergeObjects rules path distinct, Journal.writes_all,
      List.flatMap_map, List.mem_flatMap]
    constructor
    · rintro ⟨⟨name, v⟩, taken, written⟩
      -- What both sides have is merged by a call, and what is new is written at once.
      cases found : Keyed.get? name fields with
      | some old =>
        simp only [found, mergeField] at written
        exact .inl ⟨_, _, .field notMap taken found, written⟩
      | none =>
        simp only [found, mergeField] at written
        obtain rfl := List.mem_singleton.1 written
        exact .inr (.field filled notMap taken found)
    · rintro (⟨segment, next, makes, written⟩ | adds)
      · cases makes with
        | field _ taken found =>
          exact ⟨_, taken, by simpa only [found, mergeField, merged] using written⟩
        | entry isMap member => simp [isMap] at notMap
      · cases adds with
        | field _ _ taken missing =>
          exact ⟨_, taken, by simp [missing, mergeField, Journal.wrote]⟩
  | @map fields given path filled isMap =>
    obtain ⟨⟨name, first⟩, others, rfl⟩ := List.exists_cons_of_ne_nil filled
    -- That the route is a map is noted in the journal, but is no write.
    rw [merged_map isMap]
    simp only [mergeEntries_eq, Journal.writes_append, Journal.writes_all, List.flatMap_map,
      Journal.mapAt, List.nil_append, List.mem_flatMap]
    constructor
    · rintro ⟨⟨k, v⟩, member, written⟩
      exact .inl ⟨_, _, .entry isMap member, written⟩
    · rintro (⟨segment, next, makes, written⟩ | adds)
      · cases makes with
        | field notMap _ _ => simp [isMap] at notMap
        | entry _ member => exact ⟨_, member, written⟩
      · cases adds with
        | field _ notMap _ _ => simp [isMap] at notMap
  | @sequence items given path filled =>
    obtain ⟨first, others, rfl⟩ := List.exists_cons_of_ne_nil filled
    rw [merged_sequence]
    simp only [Merged.map, mergeItems_eq, Journal.writes_all, List.flatMap_map, List.mem_flatMap]
    constructor
    · rintro ⟨⟨v, i⟩, listed, written⟩
      exact .inl ⟨_, _, .item (List.mem_zipIdx_iff_getElem?.1 listed), written⟩
    · rintro (⟨segment, next, makes, written⟩ | adds)
      · cases makes with
        | @item _ _ _ _ i v found =>
          exact ⟨(v, i), List.mem_zipIdx_iff_getElem?.2 found, written⟩
      · cases adds

/-- A write that adds a field adds one that no call is made for. -/
theorem Adds.path_eq {write : Write} (adds : Adds rules call write) :
    ∃ name, write = ⟨call.path.field name, .remove⟩ ∧
      ∀ segment next, Makes rules call segment next → segment.bare ≠ .field name := by
  cases adds with
  | field filled notMap taken missing =>
    refine ⟨_, rfl, fun segment next makes same => ?_⟩
    cases makes with
    | field _ _ found =>
      obtain rfl := Segment.field.inj same
      simp [missing] at found
    | entry isMap _ => simp [isMap] at notMap

/-- At most one call is made behind a step. -/
theorem Makes.unique {other : Segment} {another : MergeCall}
    (makes : Makes rules call segment next) (second : Makes rules call other another)
    (formed : call.Formed) (same : segment.bare = other.bare) : next = another := by
  cases makes with
  | @field fields given path name old v notMap taken found =>
    cases second with
    | field _ taken' found' =>
      -- One name is taken at most once, and finds at most one field.
      obtain rfl := Segment.field.inj same
      have distinct := takenFields_nodup rules path formed.given.distinct
      obtain rfl := Option.some.inj ((Keyed.get?_of_mem distinct taken).symm.trans
        (Keyed.get?_of_mem distinct taken'))
      obtain rfl := Option.some.inj (found.symm.trans found')
      rfl
    | entry isMap _ => simp [isMap] at notMap
  | entry isMap member =>
    cases second with
    | field notMap _ _ => simp [isMap] at notMap
    | entry _ member' =>
      obtain rfl := Segment.field.inj same
      obtain rfl := Option.some.inj ((Keyed.get?_of_mem formed.given.distinct member).symm.trans
        (Keyed.get?_of_mem formed.given.distinct member'))
      rfl
  | item found =>
    cases second with
    | item found' =>
      obtain rfl := Segment.index.inj same
      obtain rfl := Option.some.inj (found.symm.trans found')
      rfl

/-- A call that is made of calls ends in a value of the source's kind. -/
theorem Composes.kind (composes : Composes rules call) :
    (call.merged rules).result.isArray = call.given.isArray ∧
      (call.merged rules).result.isObject = call.given.isObject := by
  cases composes with
  | struct filled notMap => rw [merged_struct filled notMap]; exact ⟨rfl, rfl⟩
  | @map fields given path filled isMap =>
    obtain ⟨⟨name, first⟩, others, rfl⟩ := List.exists_cons_of_ne_nil filled
    rw [merged_map isMap]
    exact ⟨rfl, rfl⟩
  | @sequence items given path filled =>
    obtain ⟨first, others, rfl⟩ := List.exists_cons_of_ne_nil filled
    rw [merged_sequence]
    exact ⟨rfl, rfl⟩

/-- A call for a part of a sequence is made at a position. -/
theorem Makes.isIndex (makes : Makes rules call segment next) :
    segment.isIndex = call.given.isArray := by
  cases makes <;> rfl

/-- The writes of a call are behind its route. -/
theorem Composes.behind (composes : Composes rules call) (formed : call.Formed) {write : Write}
    (written : write ∈ (call.merged rules).journal.writes) :
    ∃ segment rest, write.path = call.path ++ segment :: rest ∧
      segment.isIndex = call.given.isArray := by
  rcases (composes.mem_writes formed).1 written with ⟨segment, next, makes, written⟩ | adds
  · obtain ⟨rest, _, route, _⟩ := ((makes.formed formed).sound rules).placed write written
    refine ⟨segment, rest, ?_, makes.isIndex⟩
    rw [route, makes.path_eq, List.append_assoc, List.singleton_append]
  · cases adds with
    | @field fields given path name v filled notMap taken missing =>
      exact ⟨.field name, [], rfl, rfl⟩

/-- A write of a call is one of the call behind a step, or it is apart from that call. -/
theorem Makes.apart (makes : Makes rules call segment next) (formed : call.Formed) {write : Write}
    (written : write ∈ (call.merged rules).journal.writes) :
    write ∈ (next.merged rules).journal.writes ∨ write.path.Apart next.path := by
  rw [makes.path_eq]
  -- Two calls behind one step are the same, and behind two steps they are apart.
  rcases (makes.composes.mem_writes formed).1 written with ⟨other, another, second, written⟩ | adds
  · by_cases same : segment.bare = other.bare
    · exact .inl (makes.unique second formed same ▸ written)
    · obtain ⟨rest, _, route, _⟩ := ((second.formed formed).sound rules).placed write written
      rw [route, second.path_eq, List.append_assoc, List.singleton_append]
      exact .inr (Path.apart_of_bare_ne call.path (Ne.symm same) rest [])
  · obtain ⟨name, rfl, fresh⟩ := adds.path_eq
    exact .inr (Path.apart_of_bare_ne call.path (Ne.symm (fresh segment next makes)) [] [])

/-- The writes of a call are writes of the call that makes it. -/
theorem Makes.writes_subset (makes : Makes rules call segment next) (formed : call.Formed) :
    (next.merged rules).journal.writes ⊆ (call.merged rules).journal.writes :=
  fun _ written => (makes.composes.mem_writes formed).2 (.inl ⟨segment, next, makes, written⟩)

/-- What holds of a call if it holds of the calls it makes holds of every call. -/
theorem inductionOn (rules : MergeRules) {motive : MergeCall → Prop} {call : MergeCall}
    (formed : call.Formed) (step : ∀ call, call.Formed →
      (∀ segment next, Makes rules call segment next → motive next) → motive call) :
    motive call := by
  obtain ⟨there, path, given⟩ := call
  -- A call is made for a part of the source, so the source gets smaller.
  induction given using Value.inductionOn generalizing there path with
  | array given ih =>
    refine step _ formed fun segment next makes => ?_
    have formedNext := makes.formed formed
    cases makes with
    | item found => exact ih _ (List.mem_of_getElem? found) _ _ formedNext
  | object given ih =>
    refine step _ formed fun segment next makes => ?_
    have formedNext := makes.formed formed
    cases makes with
    | field _ taken _ => exact ih (_, _) (mem_takenFields.1 taken).1 _ _ formedNext
    | entry _ member => exact ih (_, _) member _ _ formedNext
  | _ => exact step _ formed fun segment next makes => nomatch makes

end MergeCall

end Triversion
