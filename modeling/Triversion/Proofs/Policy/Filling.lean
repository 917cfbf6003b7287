import Triversion.Policy.Absence
import Triversion.Proofs.NameSet
import Triversion.Proofs.Policy.Records

/-!
Recording the absences inside any value.

Recording changes what the bookkeeping lists hold and nothing else, at any depth, and what is
recorded once is not changed when it is recorded again.
-/

namespace Triversion

namespace Value

mutual
/-- A value with nothing in its bookkeeping lists, at any depth. -/
def dataOnly : Value → Value
  | .null => .null
  | .bool b => .bool b
  | .number n => .number n
  | .string s => .string s
  | .array items => .array (dataOnlyItems items)
  | .object fields => .object (dataOnlyFields fields)

/-- The items of a sequence with nothing in their bookkeeping lists. -/
def dataOnlyItems : List Value → List Value
  | [] => []
  | v :: rest => v.dataOnly :: dataOnlyItems rest

/-- The fields of an object, of which the bookkeeping lists keep their names alone. -/
def dataOnlyFields : List (String × Value) → List (String × Value)
  | [] => []
  | (name, v) :: rest =>
    (name, if isBookkeeping name then .null else v.dataOnly) :: dataOnlyFields rest
end

/-- Each field is taken without its lists, and a list is taken as nothing. -/
theorem dataOnlyFields_eq (fields : Fields) :
    dataOnlyFields fields = fields.map fun entry =>
      (entry.1, if isBookkeeping entry.1 then .null else entry.2.dataOnly) := by
  induction fields with
  | nil => rfl
  | cons entry rest ih =>
    obtain ⟨name, v⟩ := entry
    rw [dataOnlyFields, ih, List.map_cons]

/-- Names that are stored as texts are read again. -/
theorem listedNames_of_strings {fields : Fields} {list : String} {names : List String}
    (found : Keyed.get? list fields = some (.strings names)) : listedNames fields list = names := by
  rw [listedNames, found, strings]
  dsimp only
  rw [List.filterMap_map]
  exact List.filterMap_some

end Value

namespace Policy

/-- Both lists are in ascending order. -/
structure AbsenceLists.Ascending (lists : AbsenceLists) : Prop where
  nulls : NameSet.Ascending lists.nulls
  forced : NameSet.Ascending lists.forced

/-- A field stands in the list that its value belongs in, and not in the other. -/
structure AbsenceLists.Notes (lists : AbsenceLists) (name : String) (v : Value) : Prop where
  null : v.isNull = true → name ∈ lists.nulls ∧ name ∉ lists.forced
  forced : v.isNull = false → v.isBlank = true → v.isObject = false →
    name ∉ lists.nulls ∧ name ∈ lists.forced

namespace AbsenceLists

variable {lists : AbsenceLists} {name other : String} {v : Value}

/-- The lists of a struct are read in ascending order. -/
theorem ascending_ofFields (fields : Fields) : (ofFields fields).Ascending :=
  ⟨NameSet.ascending_ofList _, NameSet.ascending_ofList _⟩

/-- Neither list has to hold a struct. -/
theorem notes_object (lists : AbsenceLists) (name : String) (fields : Fields) :
    lists.Notes name (.object fields) :=
  ⟨nofun, nofun⟩

/-- The one list has to hold a sequence if it is empty. -/
theorem notes_array_iff {items : List Value} :
    lists.Notes name (.array items) ↔
      ((Value.array items).isBlank = true → name ∉ lists.nulls ∧ name ∈ lists.forced) :=
  ⟨fun noted isBlank => noted.forced rfl isBlank rfl,
    fun forced => ⟨nofun, fun _ isBlank _ => forced isBlank⟩⟩

/-- Entering a field keeps the lists ascending. -/
theorem Ascending.note (sorted : lists.Ascending) (name : String) (v : Value) :
    (lists.note name v).Ascending := by
  unfold AbsenceLists.note
  split
  · exact ⟨NameSet.ascending_add sorted.nulls, NameSet.ascending_remove sorted.forced⟩
  · split
    · exact ⟨NameSet.ascending_remove sorted.nulls, NameSet.ascending_add sorted.forced⟩
    · exact sorted

/-- A field that has been entered stands where it belongs. -/
theorem notes_note (lists : AbsenceLists) (name : String) (v : Value) :
    (lists.note name v).Notes name v := by
  refine ⟨fun isNull => ?_, fun notNull isBlank notObject => ?_⟩
  · simp [note, isNull, NameSet.remove]
  · simp [note, notNull, isBlank, notObject, NameSet.remove]

/-- Two pairs of lists list one name alike. -/
structure AgreeOn (name : String) (lists others : AbsenceLists) : Prop where
  nulls : name ∈ lists.nulls ↔ name ∈ others.nulls
  forced : name ∈ lists.forced ↔ name ∈ others.forced

/-- Lists that list a name alike as others do, list it alike as these do. -/
theorem AgreeOn.trans {others last : AbsenceLists} (first : AgreeOn name lists others)
    (second : AgreeOn name others last) : AgreeOn name lists last :=
  ⟨first.nulls.trans second.nulls, first.forced.trans second.forced⟩

/-- Neither adding nor taking out another name decides about this one. -/
theorem agreeOn_note_of_ne (lists : AbsenceLists) (different : name ≠ other) (w : Value) :
    AgreeOn name (lists.note other w) lists := by
  unfold note
  split
  · exact ⟨by simp [different], by simp [NameSet.remove, different]⟩
  · split
    · exact ⟨by simp [NameSet.remove, different], by simp [different]⟩
    · exact ⟨Iff.rfl, Iff.rfl⟩

/-- Entering one field leaves all others where they stand. -/
theorem Notes.note_of_ne (noted : lists.Notes name v) (different : name ≠ other) (w : Value) :
    (lists.note other w).Notes name v := by
  obtain ⟨nulls, forced⟩ := agreeOn_note_of_ne lists different w
  constructor
  · rw [nulls, forced]; exact noted.null
  · rw [nulls, forced]; exact noted.forced

/-- A field that stands where it belongs is entered without effect. -/
theorem Notes.note_eq (noted : lists.Notes name v) (sorted : lists.Ascending) :
    lists.note name v = lists := by
  unfold note
  split
  · next isNull =>
    obtain ⟨there, absent⟩ := noted.null isNull
    -- Adding what is there and removing what is not there change nothing.
    have kept : NameSet.remove name lists.forced = lists.forced :=
      List.filter_eq_self.2 fun b inside => by
        simpa using fun same : b = name => absent (same ▸ inside)
    rw [NameSet.add_of_mem sorted.nulls there, kept]
  · next notNull =>
    split
    · next blank =>
      simp only [Bool.and_eq_true, Bool.not_eq_true'] at blank
      obtain ⟨absent, there⟩ := noted.forced (by simpa using notNull) blank.1 blank.2
      have kept : NameSet.remove name lists.nulls = lists.nulls :=
        List.filter_eq_self.2 fun b inside => by
          simpa using fun same : b = name => absent (same ▸ inside)
      rw [NameSet.add_of_mem sorted.forced there, kept]
    · rfl

/-- The walk over the fields of a struct enters no bookkeeping list and nothing that is exempt. -/
def skips (policy : Policy) (path : Path) (name : String) : Bool :=
  isBookkeeping name || policy.roleAt (path.field name) = .system ||
    isExempt (policy.roleAt (path.field name))

/-- The walk enters the first field, unless it is passed over, and goes on with the others. -/
theorem noteFields_cons (policy : Policy) (path : Path) (lists : AbsenceLists)
    (entry : String × Value) (rest : Fields) :
    lists.noteFields policy path (entry :: rest) =
      (if skips policy path entry.1 then lists else lists.note entry.1 entry.2).noteFields policy
        path rest :=
  rfl

/-- The lists stay ascending during the walk. -/
theorem Ascending.noteFields (sorted : lists.Ascending) (policy : Policy) (path : Path)
    (fields : Fields) : (lists.noteFields policy path fields).Ascending := by
  induction fields generalizing lists with
  | nil => exact sorted
  | cons entry rest ih =>
    rw [noteFields_cons]
    split
    · exact ih sorted
    · exact ih (sorted.note entry.1 entry.2)

/-- A field stays where it stands while the walk meets other fields only. -/
theorem Notes.noteFields (noted : lists.Notes name v) (policy : Policy) (path : Path)
    {fields : Fields} (others : name ∉ fields.map (·.1)) :
    (lists.noteFields policy path fields).Notes name v := by
  induction fields generalizing lists with
  | nil => exact noted
  | cons entry rest ih =>
    simp only [List.map_cons, List.mem_cons, not_or] at others
    rw [noteFields_cons]
    split
    · exact ih noted others.2
    · exact ih (noted.note_of_ne others.1 entry.2) others.2

/-- After the walk every field that it enters stands where it belongs. -/
theorem notes_noteFields (policy : Policy) (path : Path) (lists : AbsenceLists) {fields : Fields}
    (distinct : (fields.map (·.1)).Nodup) {entry : String × Value} (member : entry ∈ fields)
    (entered : skips policy path entry.1 = false) :
    (lists.noteFields policy path fields).Notes entry.1 entry.2 := by
  induction fields generalizing lists with
  | nil => simp at member
  | cons first rest ih =>
    obtain ⟨fresh, distinct⟩ := List.nodup_cons.1 distinct
    rw [noteFields_cons]
    rcases List.mem_cons.1 member with rfl | later
    · -- It is entered first, and no field after it has its name.
      rw [if_neg (by simp [entered])]
      exact (notes_note lists entry.1 entry.2).noteFields policy path fresh
    · exact ih _ distinct later

/-- A walk over fields that all stand where they belong changes nothing. -/
theorem noteFields_of_notes (sorted : lists.Ascending) (policy : Policy) (path : Path)
    {fields : Fields}
    (noted : ∀ entry ∈ fields, skips policy path entry.1 = false → lists.Notes entry.1 entry.2) :
    lists.noteFields policy path fields = lists := by
  induction fields with
  | nil => rfl
  | cons entry rest ih =>
    obtain ⟨first, later⟩ := List.forall_mem_cons.1 noted
    rw [noteFields_cons]
    split
    · exact ih later
    · next entered =>
      rw [(first (by simpa using entered)).note_eq sorted]
      exact ih later

/-- What is stored beside the two lists was there before. -/
theorem mem_store {entry : String × Value} {fields : Fields} (stored : entry ∈ lists.store fields) :
    isBookkeeping entry.1 = true ∨ entry ∈ fields := by
  rcases Keyed.mem_put stored with rfl | inner
  · exact .inl rfl
  · rcases Keyed.mem_put inner with rfl | before
    · exact .inl rfl
    · exact .inr before

/-- Storing the lists keeps the fields ascending. -/
theorem ascending_store {fields : Fields} (sorted : Keyed.Ascending fields) :
    Keyed.Ascending (lists.store fields) :=
  Keyed.ascending_put (Keyed.ascending_put sorted)

/-- The list of the fields that are null on purpose is stored under its name. -/
@[simp] theorem get?_store_nulls (lists : AbsenceLists) (fields : Fields) :
    Keyed.get? nullFields (lists.store fields) = some (.strings lists.nulls) := by
  rw [store, Keyed.get?_put_of_ne (by decide), Keyed.get?_put_self]

/-- The list of the fields that are zero on purpose is stored under its name. -/
@[simp] theorem get?_store_forced (lists : AbsenceLists) (fields : Fields) :
    Keyed.get? forceSendFields (lists.store fields) = some (.strings lists.forced) := by
  rw [store, Keyed.get?_put_self]

/-- Lists that are stored are read again as they were. -/
theorem ofFields_store (sorted : lists.Ascending) (fields : Fields) :
    ofFields (lists.store fields) = lists := by
  -- Names are stored as texts, so all of them are read again.
  simp only [ofFields, namesIn, Value.listedNames_of_strings (get?_store_nulls lists fields),
    Value.listedNames_of_strings (get?_store_forced lists fields),
    NameSet.ofList_of_ascending sorted.nulls, NameSet.ofList_of_ascending sorted.forced]

/-- Storing the same lists once more changes nothing. -/
theorem store_store {fields : Fields} (sorted : Keyed.Ascending fields) :
    lists.store (lists.store fields) = lists.store fields := by
  apply Keyed.Ascending.ext (ascending_store (ascending_store sorted)) (ascending_store sorted)
  intro key
  cases kept : isBookkeeping key with
  | false => exact get?_store kept _ _
  | true =>
    -- There are two names that are not ordinary, and both are stored.
    rcases mem_bookkeepingLists.1 (isBookkeeping_iff.1 kept) with rfl | rfl <;> simp

end AbsenceLists

/-- Recording reads only the two lists of a struct to tell whether it keeps them. -/
theorem isTracked_congr {fields others : Fields}
    (same : ∀ list ∈ bookkeepingLists, Keyed.get? list fields = Keyed.get? list others) :
    isTracked fields = isTracked others := by
  simp only [isTracked, same nullFields nullFields_mem, same forceSendFields forceSendFields_mem]

/-- A struct into which lists are stored keeps lists. -/
theorem isTracked_store (lists : AbsenceLists) (fields : Fields) :
    isTracked (lists.store fields) = true := by
  simp [isTracked, Value.strings, Value.isArray]

/-- The fields keep their order while what is inside them is recorded. -/
theorem ascending_recordInFields (policy : Policy) (path : Path) {fields : Fields}
    (sorted : Keyed.Ascending fields) :
    Keyed.Ascending (policy.recordInFields path fields) := by
  rw [recordInFields_eq]
  exact Keyed.ascending_map (fun name v =>
    if isBookkeeping name || policy.roleAt (path.field name) = .system then v
    else policy.recordIn (path.field name) v) sorted

/-- Nothing is recorded inside a bookkeeping list. -/
theorem get?_recordInFields_of_list (policy : Policy) (path : Path) (fields : Fields)
    {list : String}
    (kept : isBookkeeping list = true) :
    Keyed.get? list (policy.recordInFields path fields) = Keyed.get? list fields := by
  rw [recordInFields_eq, Keyed.get?_map fun name v =>
    if isBookkeeping name || policy.roleAt (path.field name) = .system then v
    else policy.recordIn (path.field name) v]
  simp [kept]

/-- A struct keeps lists exactly if it does once its fields have been recorded. -/
theorem isTracked_recordInFields (policy : Policy) (path : Path) (fields : Fields) :
    isTracked (policy.recordInFields path fields) = isTracked fields :=
  isTracked_congr fun _ member =>
    get?_recordInFields_of_list policy path fields (isBookkeeping_iff.2 member)

/-- A struct that keeps lists has something under both of their names. -/
theorem isSome_of_isTracked {fields : Fields} (tracked : isTracked fields = true) :
    ∀ list ∈ bookkeepingLists, (Keyed.get? list fields).isSome = true := by
  simp only [isTracked, Bool.and_eq_true] at tracked
  intro list member
  rcases mem_bookkeepingLists.1 member with rfl | rfl
  · exact Option.isSome_of_any tracked.1
  · exact Option.isSome_of_any tracked.2

/-- What recording does to a struct: to its fields one by one, and to its lists if it keeps them. -/
theorem recordIn_object (policy : Policy) (path : Path) (fields : Fields) :
    policy.recordIn path (.object fields) =
      .object (if isTracked fields then
          ((AbsenceLists.ofFields fields).noteFields policy path fields).store
            (policy.recordInFields path fields)
        else policy.recordInFields path fields) := by
  rw [recordIn, apply_ite Value.object]

/-- What is no struct is as blank after recording as before. -/
theorem isBlank_recordIn_of_plain (policy : Policy) (path : Path) {v : Value}
    (plain : v.isObject = false) : (policy.recordIn path v).isBlank = v.isBlank := by
  cases v with
  | array items =>
    -- A sequence is blank exactly if it is empty, and keeps its length.
    cases items <;> simp [recordIn, recordInItems, Value.isBlank]
  | object fields => simp [Value.isObject] at plain
  | _ => simp [recordIn]

/-- Recording leaves nulls null, structs structs, and everything else as blank as it was. -/
theorem notes_recordIn_iff (policy : Policy) (path : Path) {lists : AbsenceLists} {name : String}
    {v : Value} : lists.Notes name (policy.recordIn path v) ↔ lists.Notes name v := by
  cases v with
  | object fields =>
    rw [recordIn_object]
    exact iff_of_true (AbsenceLists.notes_object ..) (AbsenceLists.notes_object ..)
  | array items =>
    have blank := isBlank_recordIn_of_plain policy path (v := .array items) rfl
    rw [recordIn] at blank ⊢
    rw [AbsenceLists.notes_array_iff, AbsenceLists.notes_array_iff, blank]
  | _ => simp [recordIn]

/-- Lists that are stored where lists are kept leave the data as it was. -/
theorem AbsenceLists.dataOnlyFields_store {fields : Fields} (sorted : Keyed.Ascending fields)
    (tracked : isTracked fields = true) (lists : AbsenceLists) :
    Value.dataOnlyFields (lists.store fields) = Value.dataOnlyFields fields := by
  rw [Value.dataOnlyFields_eq, Value.dataOnlyFields_eq]
  -- No name is new, so it is enough to compare what stands under each.
  let data := fun (name : String) (v : Value) => if isBookkeeping name then .null else v.dataOnly
  apply Keyed.Ascending.ext (Keyed.ascending_map data (ascending_store sorted))
    (Keyed.ascending_map data sorted)
  intro key
  rw [Keyed.get?_map data, Keyed.get?_map data]
  cases kept : isBookkeeping key with
  | false => rw [get?_store kept]
  | true =>
    -- Both sides hold a list under this name, and lists are compared as nothing.
    have there := isSome_of_isTracked tracked key (isBookkeeping_iff.1 kept)
    have stored := isSome_of_isTracked (isTracked_store lists fields) key
      (isBookkeeping_iff.1 kept)
    obtain ⟨old, before⟩ := Option.isSome_iff_exists.1 there
    obtain ⟨new, after⟩ := Option.isSome_iff_exists.1 stored
    simp [before, after, data, kept]

/-- Items whose data stays make a sequence whose data stays, from any position on. -/
theorem dataOnlyItems_recordInItems (policy : Policy) (path : Path) {items : List Value} (i : Nat)
    (each : ∀ item ∈ items, ∀ path, (policy.recordIn path item).dataOnly = item.dataOnly) :
    Value.dataOnlyItems (policy.recordInItems path i items) = Value.dataOnlyItems items := by
  -- Positions only say under which route an item is recorded.
  induction items generalizing i with
  | nil => rfl
  | cons first rest later =>
    obtain ⟨here, there⟩ := List.forall_mem_cons.1 each
    rw [recordInItems, Value.dataOnlyItems, Value.dataOnlyItems, here, later (i + 1) there]

/-- Recording changes nothing but what the bookkeeping lists hold. -/
theorem dataOnly_recordIn (policy : Policy) (path : Path) {v : Value} (formed : v.WellFormed) :
    (policy.recordIn path v).dataOnly = v.dataOnly := by
  induction v using Value.inductionOn generalizing path with
  | array items ih =>
    have inside := Value.wellFormed_array.1 formed
    rw [recordIn, Value.dataOnly, Value.dataOnly]
    exact congrArg Value.array (policy.dataOnlyItems_recordInItems path 0
      fun item member path => ih item member path (inside item member))
  | object fields ih =>
    obtain ⟨sorted, inside⟩ := Value.wellFormed_object.1 formed
    have walked : Value.dataOnlyFields (policy.recordInFields path fields) =
        Value.dataOnlyFields fields := by
      rw [recordInFields_eq, Value.dataOnlyFields_eq, Value.dataOnlyFields_eq, List.map_map]
      refine List.map_congr_left fun entry member => ?_
      have here := ih entry member (path.field entry.1) (inside entry member)
      -- Lists are not looked into on either side, and system fields stay as they are.
      by_cases list : isBookkeeping entry.1 = true
      · simp [list]
      · by_cases system : policy.roleAt (path.field entry.1) = .system
        · simp [list, system]
        · simp [list, system, here]
    rw [recordIn_object, Value.dataOnly, Value.dataOnly, ← walked]
    split
    · next tracked =>
      have kept := (isTracked_recordInFields policy path fields).trans tracked
      rw [AbsenceLists.dataOnlyFields_store (ascending_recordInFields policy path sorted) kept]
    · rfl
  | _ => simp [recordIn]

section Again

variable (policy : Policy) (path : Path)

/-- Items that are not changed again make a sequence that is not. -/
theorem recordInItems_recordInItems {items : List Value} (i : Nat)
    (each : ∀ item ∈ items, ∀ path,
      policy.recordIn path (policy.recordIn path item) = policy.recordIn path item) :
    policy.recordInItems path i (policy.recordInItems path i items) =
      policy.recordInItems path i items := by
  induction items generalizing i with
  | nil => rfl
  | cons first rest later =>
    obtain ⟨here, there⟩ := List.forall_mem_cons.1 each
    rw [recordInItems, recordInItems, here, later (i + 1) there]

variable {fields : Fields}

/-- A field that has been recorded is not changed again, whatever stands beside it. -/
theorem recordInFields_of_recorded
    (each : ∀ entry ∈ fields, ∀ path,
      policy.recordIn path (policy.recordIn path entry.2) = policy.recordIn path entry.2)
    {others : Fields} (origin : ∀ entry ∈ others, isBookkeeping entry.1 = true ∨
      entry ∈ policy.recordInFields path fields) :
    policy.recordInFields path others = others := by
  rw [recordInFields_eq]
  refine (List.map_congr_left fun entry member => ?_).trans (List.map_id _)
  rcases origin entry member with list | recorded
  · simp [list]
  · rw [recordInFields_eq] at recorded
    obtain ⟨field, listed, rfl⟩ := List.mem_map.1 recorded
    have here := each field listed (path.field field.1)
    simp only [id]
    split <;> simp_all

/-- The lists hold every field that a second walk enters. -/
theorem notes_of_recorded (sorted : Keyed.Ascending fields) {entry : String × Value}
    (recorded : entry ∈ policy.recordInFields path fields)
    (entered : AbsenceLists.skips policy path entry.1 = false) :
    ((AbsenceLists.ofFields fields).noteFields policy path fields).Notes entry.1 entry.2 := by
  rw [recordInFields_eq] at recorded
  obtain ⟨field, listed, rfl⟩ := List.mem_map.1 recorded
  have before := AbsenceLists.notes_noteFields policy path (AbsenceLists.ofFields fields)
    sorted.nodup listed entered
  simp only
  split
  · exact before
  · exact (notes_recordIn_iff policy _).2 before

end Again

/-- What has been recorded once is not changed when it is recorded again. -/
theorem recordIn_recordIn (policy : Policy) (path : Path) {v : Value} (formed : v.WellFormed) :
    policy.recordIn path (policy.recordIn path v) = policy.recordIn path v := by
  induction v using Value.inductionOn generalizing path with
  | array items ih =>
    have inside := Value.wellFormed_array.1 formed
    rw [recordIn, recordIn]
    exact congrArg Value.array (policy.recordInItems_recordInItems path 0
      fun item member path => ih item member path (inside item member))
  | object fields ih =>
    obtain ⟨sorted, inside⟩ := Value.wellFormed_object.1 formed
    have each : ∀ entry ∈ fields, ∀ path,
        policy.recordIn path (policy.recordIn path entry.2) = policy.recordIn path entry.2 :=
      fun entry listed path => ih entry listed path (inside entry listed)
    rw [recordIn_object]
    cases tracked : isTracked fields with
    | false =>
      -- Without lists only the fields are recorded, which is done once.
      have untracked := (isTracked_recordInFields policy path fields).trans tracked
      rw [if_neg (by simp), recordIn_object, if_neg (by simp [untracked]),
        policy.recordInFields_of_recorded path each fun entry member => .inr member]
    | true =>
      let lists := (AbsenceLists.ofFields fields).noteFields policy path fields
      let stored := lists.store (policy.recordInFields path fields)
      have ascending : lists.Ascending :=
        (AbsenceLists.ascending_ofFields fields).noteFields policy path fields
      -- The lists hold every field that the second walk enters, so it finds nothing to do.
      have noted : ∀ entry ∈ stored, AbsenceLists.skips policy path entry.1 = false →
          lists.Notes entry.1 entry.2 := by
        intro entry member entered
        rcases AbsenceLists.mem_store member with list | recorded
        · simp [AbsenceLists.skips, list] at entered
        · exact policy.notes_of_recorded path sorted recorded entered
      have same : (AbsenceLists.ofFields stored).noteFields policy path stored = lists := by
        rw [AbsenceLists.ofFields_store ascending]
        exact AbsenceLists.noteFields_of_notes ascending policy path noted
      rw [if_pos rfl, recordIn_object, if_pos (isTracked_store _ _), same,
        policy.recordInFields_of_recorded path each fun entry member =>
          AbsenceLists.mem_store member,
        AbsenceLists.store_store (ascending_recordInFields policy path sorted)]
  | _ => simp [recordIn]

end Policy

end Triversion
