import Triversion.Proofs.Policy.Breaches
import Triversion.Proofs.Policy.Filling
import Triversion.Proofs.Value.At

/-!
What recording does to each part of a value.

The structs that recording looks at are those that the policy check looks at. The lists of such a
struct come to hold exactly what they listed and what is absent, and all other parts stay.
-/

namespace Triversion

namespace Value

/-- What a value shows by itself: a scalar, the length of a sequence, the names of an object. -/
def surface : Value → Value
  | .array items => .array (items.map fun _ => .null)
  | .object fields => .object (fields.map fun entry => (entry.1, .null))
  | v => v

/-- A value without information that is neither null nor a struct. -/
def isZero (v : Value) : Bool :=
  v.isBlank && !v.isNull && !v.isObject

/-- The contents of the bookkeeping lists are not on the surface. -/
theorem surface_dataOnly (v : Value) : v.dataOnly.surface = v.surface := by
  cases v with
  | array items =>
    have lengths : ∀ items, (dataOnlyItems items).map (fun _ => Value.null) =
        items.map fun _ => .null := by
      intro items
      induction items with
      | nil => rfl
      | cons first rest ih => rw [dataOnlyItems, List.map_cons, List.map_cons, ih]
    exact congrArg Value.array (lengths items)
  | object fields =>
    rw [dataOnly, surface, surface, dataOnlyFields_eq, List.map_map]
    rfl
  | _ => rfl

end Value

namespace Policy

variable {policy : Policy} {path : Path} {fields : Fields} {name : String}

/-- The bookkeeping lists of a struct have to account for a field. -/
structure Counts (policy : Policy) (path : Path) (name : String) : Prop where
  ordinary : isBookkeeping name = false
  visible : policy.roleAt (path.field name) ≠ .system
  settable : policy.roleAt (path.field name) ≠ .outputOnly
  zeroable : policy.roleAt (path.field name) ≠ .nonZero

/-- The walk over the fields of a struct enters those that count. -/
theorem skips_eq_false_iff : AbsenceLists.skips policy path name = false ↔
    policy.Counts path name := by
  constructor
  · intro entered
    simp only [AbsenceLists.skips, isExempt, Bool.or_eq_false_iff, decide_eq_false_iff_not]
      at entered
    exact ⟨entered.1.1, entered.1.2, entered.2.1, entered.2.2⟩
  · rintro ⟨ordinary, visible, settable, zeroable⟩
    simp [AbsenceLists.skips, isExempt, ordinary, visible, settable, zeroable]

/-- A field that counts holds null. -/
def HoldsNull (policy : Policy) (path : Path) (fields : Fields) (name : String) : Prop :=
  policy.Counts path name ∧ Keyed.get? name fields = some .null

/-- A field that counts holds a zero value. -/
def HoldsZero (policy : Policy) (path : Path) (fields : Fields) (name : String) : Prop :=
  policy.Counts path name ∧ ∃ v, Keyed.get? name fields = some v ∧ v.isZero = true

/-- Under the name of a list stand, in ascending order and each once, exactly the given names. -/
def Lists (fields : Fields) (list : String) (given : String → Prop) : Prop :=
  ∃ names, Keyed.get? list fields = some (.strings names) ∧ NameSet.Ascending names ∧
    ∀ name, name ∈ names ↔ given name

/--
The lists of a recorded struct hold what they held before and what is absent.

A null field and a field that holds a zero value stand in different lists, so each of them is taken
out of the list that it does not belong in.
-/
structure ListsAbsences (policy : Policy) (path : Path) (fields recorded : Fields) : Prop where
  nulls : Lists recorded nullFields fun name =>
    (name ∈ Value.listedNames fields nullFields ∧ ¬ policy.HoldsZero path fields name) ∨
      policy.HoldsNull path fields name
  forced : Lists recorded forceSendFields fun name =>
    (name ∈ Value.listedNames fields forceSendFields ∧ ¬ policy.HoldsNull path fields name) ∨
      policy.HoldsZero path fields name

/-- A list whose names are known is read as these. -/
theorem Lists.mem_listedNames {list : String} {given : String → Prop}
    (lists : Lists fields list given) : name ∈ Value.listedNames fields list ↔ given name := by
  obtain ⟨names, found, _, exactly⟩ := lists
  rw [Value.listedNames_of_strings found, exactly]

/-- A list whose names are known holds them as they are read. -/
theorem Lists.get?_eq {list : String} {given : String → Prop} (lists : Lists fields list given) :
    Keyed.get? list fields = some (.strings (namesIn fields list)) := by
  obtain ⟨names, found, ascending, _⟩ := lists
  rw [found, namesIn, Value.listedNames_of_strings found, NameSet.ofList_of_ascending ascending]

/-- Nothing is null and a zero value at once. -/
theorem HoldsNull.not_holdsZero (null : policy.HoldsNull path fields name) :
    ¬ policy.HoldsZero path fields name := by
  rintro ⟨-, v, found, zero⟩
  obtain rfl := Option.some.inj (null.2.symm.trans found)
  simp [Value.isZero, Value.isNull] at zero

/-- The fields of a struct at a route once they have been recorded. -/
def recordedFields (policy : Policy) (path : Path) (fields : Fields) : Fields :=
  if isTracked fields then
    ((AbsenceLists.ofFields fields).noteFields policy path fields).store
      (policy.recordInFields path fields)
  else policy.recordInFields path fields

/-- A struct is recorded field by field. -/
@[simp] theorem recordIn_fields (policy : Policy) (path : Path) (fields : Fields) :
    policy.recordIn path (.object fields) = .object (policy.recordedFields path fields) :=
  recordIn_object policy path fields

namespace AbsenceLists

variable {lists : AbsenceLists} {v : Value}

/-- A field is entered as null, as zero or not at all. -/
theorem note_eq (lists : AbsenceLists) (name : String) (v : Value) :
    lists.note name v =
      if v.isNull then ⟨NameSet.add name lists.nulls, NameSet.remove name lists.forced⟩
      else if v.isZero then ⟨NameSet.remove name lists.nulls, NameSet.add name lists.forced⟩
      else lists := by
  cases isNull : v.isNull <;> simp [note, Value.isZero, isNull]

/-- A field that has been entered is listed as null if it is, or if it was so and is not zero. -/
theorem mem_nulls_note : name ∈ (lists.note name v).nulls ↔
    (name ∈ lists.nulls ∧ v.isZero = false) ∨ v.isNull = true := by
  rw [note_eq]
  split
  · next isNull => simp [isNull]
  · next notNull => split <;> simp_all [NameSet.remove]

/-- A field that has been entered is listed as zero if it is, or if it was so and is not null. -/
theorem mem_forced_note : name ∈ (lists.note name v).forced ↔
    (name ∈ lists.forced ∧ v.isNull = false) ∨ v.isZero = true := by
  rw [note_eq]
  split
  · next isNull => simp [isNull, Value.isZero, NameSet.remove]
  · next notNull => split <;> simp_all

/-- A walk that does not enter a field lists it as before. -/
theorem agreeOn_noteFields_of_not_entered (lists : AbsenceLists)
    (fresh : ∀ v, (name, v) ∈ fields → ¬ policy.Counts path name) :
    AgreeOn name (lists.noteFields policy path fields) lists := by
  induction fields generalizing lists with
  | nil => exact ⟨Iff.rfl, Iff.rfl⟩
  | cons entry rest ih =>
    have later := fun v member => fresh v (List.mem_cons_of_mem entry member)
    rw [noteFields_cons]
    split
    · exact ih lists later
    · next entered =>
      -- What is entered has another name.
      have different : name ≠ entry.1 := by
        rintro rfl
        exact fresh entry.2 List.mem_cons_self (skips_eq_false_iff.1 (by simpa using entered))
      exact (ih _ later).trans (agreeOn_note_of_ne lists different entry.2)

/-- A walk lists a field that it enters as entering the field alone does. -/
theorem agreeOn_noteFields (lists : AbsenceLists) (distinct : (fields.map (·.1)).Nodup)
    (member : (name, v) ∈ fields) (counts : policy.Counts path name) :
    AgreeOn name (lists.noteFields policy path fields) (lists.note name v) := by
  induction fields generalizing lists with
  | nil => simp at member
  | cons entry rest ih =>
    obtain ⟨fresh, distinct⟩ := List.nodup_cons.1 distinct
    rw [noteFields_cons]
    rcases List.mem_cons.1 member with rfl | later
    · -- No field behind it has its name.
      rw [if_neg (by simp [skips_eq_false_iff.2 counts])]
      exact agreeOn_noteFields_of_not_entered _ fun w inside =>
        absurd (List.mem_map_of_mem inside) fresh
    · -- What is entered before it has another name and says nothing about it.
      have different : name ≠ entry.1 := by
        rintro rfl
        exact fresh (List.mem_map.2 ⟨_, later, rfl⟩)
      have before : AgreeOn name ((if skips policy path entry.1 then lists
          else lists.note entry.1 entry.2).note name v) (lists.note name v) := by
        split
        · exact ⟨Iff.rfl, Iff.rfl⟩
        · have same := agreeOn_note_of_ne lists different entry.2
          constructor
          · rw [mem_nulls_note, mem_nulls_note, same.nulls]
          · rw [mem_forced_note, mem_forced_note, same.forced]
      exact (ih _ distinct later).trans before

/-- Whether a field counts, the walk over all fields lists it as its value says. -/
theorem lists_noteFields (policy : Policy) (path : Path) (lists : AbsenceLists)
    (distinct : (fields.map (·.1)).Nodup) (name : String) :
    (name ∈ (lists.noteFields policy path fields).nulls ↔
      (name ∈ lists.nulls ∧ ¬ policy.HoldsZero path fields name) ∨
        policy.HoldsNull path fields name) ∧
    (name ∈ (lists.noteFields policy path fields).forced ↔
      (name ∈ lists.forced ∧ ¬ policy.HoldsNull path fields name) ∨
        policy.HoldsZero path fields name) := by
  by_cases entered : ∃ v, (name, v) ∈ fields ∧ policy.Counts path name
  · -- A field that counts is listed as entering it alone does.
    obtain ⟨v, member, counts⟩ := entered
    have found := Keyed.get?_of_mem distinct member
    obtain ⟨nulls, forced⟩ := agreeOn_noteFields lists distinct member counts
    rw [nulls, forced, mem_nulls_note, mem_forced_note]
    simp [HoldsZero, HoldsNull, counts, found, ← Value.isNull_iff]
  · -- A field that is not there or does not count holds nothing that counts.
    have fresh : ∀ v, (name, v) ∈ fields → ¬ policy.Counts path name :=
      fun v member counts => entered ⟨v, member, counts⟩
    obtain ⟨nulls, forced⟩ := agreeOn_noteFields_of_not_entered lists fresh
    have noNull : ¬ policy.HoldsNull path fields name := by
      rintro ⟨counts, found⟩
      exact fresh _ (Keyed.mem_of_get? found) counts
    have noZero : ¬ policy.HoldsZero path fields name := by
      rintro ⟨counts, _, found, _⟩
      exact fresh _ (Keyed.mem_of_get? found) counts
    rw [nulls, forced]
    simp [noNull, noZero]

end AbsenceLists

section Parts

variable (policy : Policy) (path : Path)

/-- Outside the lists a field is recorded for itself, unless the system keeps it. -/
theorem get?_recordedFields (fields : Fields) (ordinary : isBookkeeping name = false) :
    Keyed.get? name (policy.recordedFields path fields) =
      (Keyed.get? name fields).map fun v =>
        if policy.roleAt (path.field name) = .system then v
        else policy.recordIn (path.field name) v := by
  have walked : Keyed.get? name (policy.recordInFields path fields) =
      (Keyed.get? name fields).map fun v =>
        if policy.roleAt (path.field name) = .system then v
        else policy.recordIn (path.field name) v := by
    rw [recordInFields_eq, Keyed.get?_map fun name v =>
      if isBookkeeping name || policy.roleAt (path.field name) = .system then v
      else policy.recordIn (path.field name) v]
    simp [ordinary]
  unfold recordedFields
  split
  · rw [AbsenceLists.get?_store ordinary, walked]
  · exact walked

/-- A struct that does not keep both lists keeps what it has under their names. -/
theorem get?_recordedFields_of_list (untracked : isTracked fields = false) {list : String}
    (isList : isBookkeeping list = true) :
    Keyed.get? list (policy.recordedFields path fields) = Keyed.get? list fields := by
  rw [recordedFields, if_neg (by simp [untracked]),
    get?_recordInFields_of_list policy path fields isList]

/-- The lists of a struct that keeps them come to hold what is absent beside what they listed. -/
theorem listsAbsences_recordedFields (distinct : (fields.map (·.1)).Nodup)
    (tracked : isTracked fields = true) :
    policy.ListsAbsences path fields (policy.recordedFields path fields) := by
  have sorted := (AbsenceLists.ascending_ofFields fields).noteFields policy path fields
  have each := AbsenceLists.lists_noteFields policy path (AbsenceLists.ofFields fields) distinct
  rw [recordedFields, if_pos tracked]
  refine ⟨⟨_, AbsenceLists.get?_store_nulls .., sorted.nulls, fun name => ?_⟩,
    ⟨_, AbsenceLists.get?_store_forced .., sorted.forced, fun name => ?_⟩⟩
  · rw [(each name).1, AbsenceLists.ofFields, mem_namesIn]
  · rw [(each name).2, AbsenceLists.ofFields, mem_namesIn]

/-- Recording moves names between the lists only in a struct that keeps both. -/
theorem mem_listedNames_recordedFields (distinct : (fields.map (·.1)).Nodup) (name : String) :
    (name ∈ Value.listedNames (policy.recordedFields path fields) nullFields ↔
      (name ∈ Value.listedNames fields nullFields ∧
          ¬ (isTracked fields = true ∧ policy.HoldsZero path fields name)) ∨
        (isTracked fields = true ∧ policy.HoldsNull path fields name)) ∧
    (name ∈ Value.listedNames (policy.recordedFields path fields) forceSendFields ↔
      (name ∈ Value.listedNames fields forceSendFields ∧
          ¬ (isTracked fields = true ∧ policy.HoldsNull path fields name)) ∨
        (isTracked fields = true ∧ policy.HoldsZero path fields name)) := by
  cases tracked : isTracked fields with
  | true =>
    obtain ⟨nulls, forced⟩ := listsAbsences_recordedFields policy path distinct tracked
    simp only [nulls.mem_listedNames, forced.mem_listedNames, true_and]
  | false =>
    have same : ∀ list ∈ bookkeepingLists,
        Value.listedNames (policy.recordedFields path fields) list =
          Value.listedNames fields list := fun list isList => by
      rw [Value.listedNames, get?_recordedFields_of_list policy path tracked
        (isBookkeeping_iff.2 isList)]
      rfl
    simp [same nullFields nullFields_mem, same forceSendFields forceSendFields_mem]

/-- The names of a struct stay in order. -/
theorem ascending_recordedFields (sorted : Keyed.Ascending fields) :
    Keyed.Ascending (policy.recordedFields path fields) := by
  have walked := ascending_recordInFields policy path sorted
  unfold recordedFields
  split
  · exact AbsenceLists.ascending_store walked
  · exact walked

/-- The fields outside the lists are the recorded fields of before. -/
theorem mem_recordedFields_iff (sorted : Keyed.Ascending fields)
    (ordinary : isBookkeeping name = false) {w : Value} :
    (name, w) ∈ policy.recordedFields path fields ↔
      ∃ v, (name, v) ∈ fields ∧
        (if policy.roleAt (path.field name) = .system then v
          else policy.recordIn (path.field name) v) = w := by
  -- Names are distinct before and after, so being a field is being found.
  have distinct := (ascending_recordedFields policy path sorted).nodup
  constructor
  · intro member
    have found := Keyed.get?_of_mem distinct member
    rw [get?_recordedFields policy path fields ordinary] at found
    obtain ⟨v, before, same⟩ := Option.map_eq_some_iff.1 found
    exact ⟨v, Keyed.mem_of_get? before, same⟩
  · rintro ⟨v, member, rfl⟩
    apply Keyed.mem_of_get?
    rw [get?_recordedFields policy path fields ordinary, Keyed.get?_of_mem sorted.nodup member,
      Option.map_some]

/-- A visited field stands among the recorded fields as it has been recorded. -/
theorem mem_recordedFields (sorted : Keyed.Ascending fields) {v : Value}
    (member : (name, v) ∈ fields) (visited : policy.Visited path (name, v)) :
    (name, policy.recordIn (path.field name) v) ∈ policy.recordedFields path fields :=
  (mem_recordedFields_iff policy path sorted visited.1).2 ⟨v, member, if_neg visited.2⟩

/-- The items of a sequence are recorded one by one. -/
theorem getElem?_recordInItems (i : Nat) (items : List Value) (j : Nat) :
    (policy.recordInItems path i items)[j]? =
      items[j]?.map (policy.recordIn (path.index (i + j))) := by
  induction items generalizing i j with
  | nil => rfl
  | cons first rest ih =>
    cases j with
    | zero => rfl
    | succ j =>
      rw [recordInItems, List.getElem?_cons_succ, List.getElem?_cons_succ, ih,
        show i + 1 + j = i + (j + 1) by omega]

end Parts

/-- Recording turns nothing into a struct and no struct into anything else. -/
@[simp] theorem isObject_recordIn (policy : Policy) (path : Path) (v : Value) :
    (policy.recordIn path v).isObject = v.isObject := by
  cases v with
  | object fields => rw [recordIn_fields]; rfl
  | _ => rfl

/-- Recording shows on no surface. -/
theorem surface_recordIn (policy : Policy) (path : Path) {v : Value} (formed : v.WellFormed) :
    (policy.recordIn path v).surface = v.surface := by
  -- It leaves the data as it was, and only data is on the surface.
  rw [← Value.surface_dataOnly, dataOnly_recordIn policy path formed, Value.surface_dataOnly]

/-- A struct that is looked at stands at its route, and there it has been recorded. -/
theorem StructAt.exists_route {v : Value} {place : Path}
    (inside : policy.StructAt path v place fields) (formed : v.WellFormed) :
    ∃ route, place = path ++ route ∧ v.at? route = some (.object fields) ∧
      (policy.recordIn path v).at? route = some (.object (policy.recordedFields place fields)) := by
  -- The route has one step for each item and each field on the way to the struct.
  induction inside with
  | here => exact ⟨[], by simp, rfl, by rw [recordIn_fields]; rfl⟩
  | @item path place items i v fields found _ ih =>
    obtain ⟨route, rfl, leads, recorded⟩ :=
      ih (Value.wellFormed_array.1 formed v (List.mem_of_getElem? found))
    refine ⟨.index i :: route, by simp [Path.index], ?_, ?_⟩
    · rw [Value.at?, Value.step?, found, Option.bind_some, leads]
    · rw [recordIn, Value.at?, Value.step?, getElem?_recordInItems, found, Option.map_some,
        Option.bind_some, Nat.zero_add, recorded]
  | @field path place outer fields name v member ordinary visible _ ih =>
    obtain ⟨route, rfl, leads, recorded⟩ := ih ((Value.wellFormed_object.1 formed).2 _ member)
    have found := Keyed.get?_of_mem formed.distinct member
    refine ⟨.field name :: route, by simp [Path.field], ?_, ?_⟩
    · rw [Value.at?, Value.step?, found, Option.bind_some, leads]
    · rw [recordIn_fields, Value.at?, Value.step?, get?_recordedFields policy path outer ordinary,
        found, Option.map_some, if_neg visible, Option.bind_some, recorded]

/-- The structs inside a well-formed value are well-formed. -/
theorem StructAt.wellFormed {v : Value} {place : Path}
    (inside : policy.StructAt path v place fields) (formed : v.WellFormed) :
    (Value.object fields).WellFormed := by
  obtain ⟨_, _, leads, _⟩ := inside.exists_route formed
  exact formed.at? leads

/-- The structs inside a recorded value are the recorded structs inside the value. -/
theorem structAt_recordIn_iff {v : Value} (formed : v.WellFormed) {place : Path}
    {recorded : Fields} :
    policy.StructAt path (policy.recordIn path v) place recorded ↔
      ∃ fields, policy.StructAt path v place fields ∧
        recorded = policy.recordedFields place fields := by
  constructor
  · intro inside
    -- What is looked into is followed from the recorded value back to the value.
    induction v using Value.inductionOn generalizing path with
    | array items ih =>
      rw [recordIn] at inside
      cases inside with
      | item found inside =>
        rw [getElem?_recordInItems, Nat.zero_add] at found
        obtain ⟨item, before, rfl⟩ := Option.map_eq_some_iff.1 found
        have member := List.mem_of_getElem? before
        obtain ⟨fields, there, same⟩ :=
          ih item member (Value.wellFormed_array.1 formed item member) inside
        exact ⟨fields, .item before there, same⟩
    | object fields ih =>
      rw [recordIn_fields] at inside
      obtain ⟨sorted, each⟩ := Value.wellFormed_object.1 formed
      cases inside with
      | here => exact ⟨fields, .here, rfl⟩
      | field member ordinary visible inside =>
        obtain ⟨v, before, rfl⟩ := (mem_recordedFields_iff policy path sorted ordinary).1 member
        rw [if_neg visible] at inside
        obtain ⟨inner, there, same⟩ := ih _ before (each _ before) inside
        exact ⟨inner, .field before ordinary visible there, same⟩
    | _ => simp [recordIn] at inside; cases inside
  · rintro ⟨fields, inside, rfl⟩
    -- All that lies on the way to the struct is still there after recording.
    induction inside with
    | here =>
      rw [recordIn_fields]
      exact .here
    | @item path place items i v fields found _ ih =>
      have member := List.mem_of_getElem? found
      rw [recordIn]
      refine .item ?_ (ih (Value.wellFormed_array.1 formed v member))
      rw [getElem?_recordInItems, found, Option.map_some, Nat.zero_add]
    | @field path place outer fields name v member ordinary visible _ ih =>
      obtain ⟨sorted, each⟩ := Value.wellFormed_object.1 formed
      rw [recordIn_fields]
      have recorded := mem_recordedFields policy path sorted member ⟨ordinary, visible⟩
      exact .field recorded ordinary visible (ih (each _ member))

/-- A route from the place of a value that leads into no list that recording keeps there. -/
def SparesLists (policy : Policy) (path : Path) (v : Value) (route : Path) : Prop :=
  ∀ before fields list, policy.StructAt path v (path ++ before) fields →
    isTracked fields = true → list ∈ bookkeepingLists → ¬ (before.field list).Covers route

namespace SparesLists

variable {rest : Path}

/-- Behind an item of a sequence a route still leads into no list. -/
theorem item {items : List Value} {i : Nat} {item : Value}
    (spares : policy.SparesLists path (.array items) (.index i :: rest))
    (found : items[i]? = some item) : policy.SparesLists (path.index i) item rest := by
  intro before fields list inside tracked isList covers
  have whole : policy.StructAt path (.array items) (path ++ .index i :: before) fields :=
    .item found (by simpa [Path.index] using inside)
  exact spares _ fields list whole tracked isList (Path.covers_cons_iff.2 ⟨rfl, covers⟩)

/-- Behind a field that is looked into a route still leads into no list. -/
theorem field {segment : Segment} {v : Value}
    (spares : policy.SparesLists path (.object fields) (segment :: rest))
    (named : segment.name? = some name) (found : Keyed.get? name fields = some v)
    (ordinary : isBookkeeping name = false) (visible : policy.roleAt (path.field name) ≠ .system) :
    policy.SparesLists (path.field name) v rest := by
  intro before inner list inside tracked isList covers
  have whole : policy.StructAt path (.object fields) (path ++ .field name :: before) inner :=
    .field (Keyed.mem_of_get? found) ordinary visible (by simpa [Path.field] using inside)
  have same : (Segment.field name).bare = segment.bare := by
    cases segment <;> simp_all [Segment.name?, Segment.bare]
  exact spares _ inner list whole tracked isList (Path.covers_cons_iff.2 ⟨same, covers⟩)

/-- Where a route enters a list, the struct does not keep both lists. -/
theorem untracked {segment : Segment}
    (spares : policy.SparesLists path (.object fields) (segment :: rest))
    (named : segment.name? = some name) (isList : isBookkeeping name = true) :
    isTracked fields = false := by
  have same : (Segment.field name).bare = segment.bare := by
    cases segment <;> simp_all [Segment.name?, Segment.bare]
  cases tracked : isTracked fields with
  | false => rfl
  | true =>
    have here : policy.StructAt path (.object fields) (path ++ []) fields := by
      simpa using StructAt.here
    exact absurd (Path.covers_cons_iff.2 ⟨same, Path.nil_covers rest⟩)
      (spares [] fields name here tracked (isBookkeeping_iff.1 isList))

end SparesLists

/-- At the end of a route into no list recording leaves everything on the surface as it was. -/
theorem surface_at?_recordIn {v : Value} {route : Path} (formed : v.WellFormed)
    (spares : policy.SparesLists path v route) :
    ((policy.recordIn path v).at? route).map Value.surface = (v.at? route).map Value.surface := by
  -- The induction follows the route to where recording stops looking, or to its end.
  induction route generalizing path v with
  | nil => exact congrArg some (surface_recordIn policy path formed)
  | cons segment rest ih =>
    cases v with
    | array items =>
      cases segment with
      | index i =>
        rw [recordIn, Value.at?, Value.at?, Value.step?, Value.step?, getElem?_recordInItems,
          Nat.zero_add]
        cases found : items[i]? with
        | none => rfl
        | some item =>
          exact ih (Value.wellFormed_array.1 formed item (List.mem_of_getElem? found))
            (spares.item found)
      | _ => rfl
    | object fields =>
      rw [recordIn_fields, Value.at?, Value.at?, Value.step?_object, Value.step?_object]
      cases named : segment.name? with
      | none => rfl
      | some name =>
        simp only [Option.bind_some]
        cases list : isBookkeeping name with
        | true => rw [get?_recordedFields_of_list policy path (spares.untracked named list) list]
        | false =>
          rw [get?_recordedFields policy path fields list]
          cases found : Keyed.get? name fields with
          | none => rfl
          | some part =>
            by_cases system : policy.roleAt (path.field name) = .system
            · simp [system]
            · simp only [Option.map_some, if_neg system, Option.bind_some]
              exact ih (formed.of_get? found) (spares.field named found list system)
    | _ => rfl

/--
What recording does to a value, exactly.

Whatever a route leads to that enters no list of a struct that keeps both, shows the same names,
lengths and scalars as before. In a struct that is looked at, a field that the system keeps stays
as it is; and if the struct keeps both lists, these come to hold exactly the names they held, less
those of fields that belong in the other list, and the names of fields that belong in them.
-/
theorem recording_changes_lists_alone (policy : Policy) {v : Value} (formed : v.WellFormed) :
    (∀ route, policy.SparesLists Path.root v route →
      ((policy.recordIn Path.root v).at? route).map Value.surface =
        (v.at? route).map Value.surface) ∧
    ∀ place fields, policy.StructAt Path.root v place fields →
      (∀ name, isBookkeeping name = false → policy.roleAt (place.field name) = .system →
        (policy.recordIn Path.root v).at? (place.field name) = v.at? (place.field name)) ∧
      (isTracked fields = true →
        ∃ recorded, (policy.recordIn Path.root v).at? place = some (.object recorded) ∧
          policy.ListsAbsences place fields recorded) := by
  refine ⟨fun route => surface_at?_recordIn formed, fun place fields inside => ?_⟩
  obtain ⟨_, rfl, leads, recorded⟩ := inside.exists_route formed
  refine ⟨fun name ordinary system => ?_, fun tracked => ⟨_, recorded, ?_⟩⟩
  · have kept := get?_recordedFields policy place fields ordinary
    rw [Path.field, Value.at?_concat recorded, Value.at?_concat leads, Value.step?, Value.step?,
      kept]
    simp [system]
  · exact listsAbsences_recordedFields policy _ (formed.at? leads).distinct tracked

/-- Lists with repeated, unknown and nested entries, and a status that the system keeps. -/
private def cluttered : Value :=
  .object [
    ("ForceSendFields", .array [.string "Gone", .whole 5, .string "Gone"]),
    ("Maybe", .null),
    ("NullFields", .strings ["Size", "Size"]),
    ("Parts", .array [.object [("ForceSendFields", .array []), ("Name", .string ""),
      ("NullFields", .array [])]]),
    ("Size", .whole 0),
    ("Status", .object [("ForceSendFields", .array []), ("Name", .string ""),
      ("NullFields", .array [])])]

/-- A policy under which the system keeps the status. -/
private def watched : Policy :=
  initial.declare (Path.root.field "Status") .system

/-- A null field is listed, one that is zero leaves the list of the nulls, and the status stays. -/
theorem recording_changes_lists_alone_of_cluttered :
    cluttered.WellFormed ∧
    (watched.recordIn Path.root cluttered).at? (Path.root.field "Status") =
      cluttered.at? (Path.root.field "Status") ∧
    ∃ recorded names, (watched.recordIn Path.root cluttered).at? Path.root =
        some (.object recorded) ∧
      Keyed.get? nullFields recorded = some (.strings names) ∧ NameSet.Ascending names ∧
      "Maybe" ∈ names ∧ "Size" ∉ names := by
  have formed : cluttered.WellFormed := by decide
  obtain ⟨system, lists⟩ :=
    (recording_changes_lists_alone watched formed).2 Path.root _ .here
  obtain ⟨recorded, found, ⟨names, held, ascending, exactly⟩, -⟩ := lists (by decide)
  have null : watched.Counts Path.root "Maybe" :=
    ⟨by decide, by decide, by decide, by decide⟩
  have zero : watched.Counts Path.root "Size" := ⟨by decide, by decide, by decide, by decide⟩
  refine ⟨formed, system "Status" (by decide) (by decide), recorded, names, found, held, ascending,
    (exactly _).2 (.inr ⟨null, by decide⟩), fun listed => ?_⟩
  -- It is neither listed without being zero, nor null.
  rcases (exactly _).1 listed with ⟨-, notZero⟩ | ⟨-, isNull⟩
  · exact notZero ⟨zero, .whole 0, by decide, by decide⟩
  · exact absurd isNull (by decide)

section Settled

/-- The lists of a struct are what recording would make of them. -/
def Settled (policy : Policy) (path : Path) (fields : Fields) : Prop :=
  policy.ListsAbsences path fields fields

namespace Settled

/-- In settled lists every field stands where it belongs. -/
theorem notes (settled : policy.Settled path fields) (distinct : (fields.map (·.1)).Nodup)
    {entry : String × Value} (member : entry ∈ fields)
    (entered : AbsenceLists.skips policy path entry.1 = false) :
    (AbsenceLists.ofFields fields).Notes entry.1 entry.2 := by
  obtain ⟨nulls, forced⟩ := settled
  have counts := skips_eq_false_iff.1 entered
  have found := Keyed.get?_of_mem distinct member
  refine ⟨fun isNull => ?_, fun notNull blank plain => ?_⟩
  · have null : policy.HoldsNull path fields entry.1 :=
      ⟨counts, by rw [found, Value.isNull_iff.1 isNull]⟩
    refine ⟨mem_namesIn.2 (nulls.mem_listedNames.2 (.inr null)), fun listed => ?_⟩
    rcases forced.mem_listedNames.1 (mem_namesIn.1 listed) with ⟨-, notNull⟩ | zero
    · exact notNull null
    · exact null.not_holdsZero zero
  · have zero : policy.HoldsZero path fields entry.1 :=
      ⟨counts, entry.2, found, by simp [Value.isZero, notNull, blank, plain]⟩
    refine ⟨fun listed => ?_, mem_namesIn.2 (forced.mem_listedNames.2 (.inr zero))⟩
    rcases nulls.mem_listedNames.1 (mem_namesIn.1 listed) with ⟨-, notZero⟩ | null
    · exact notZero zero
    · exact null.not_holdsZero zero

/-- Settled lists are stored as they are. -/
theorem store_ofFields (settled : policy.Settled path fields) (sorted : Keyed.Ascending fields) :
    (AbsenceLists.ofFields fields).store fields = fields := by
  apply Keyed.Ascending.ext (AbsenceLists.ascending_store sorted) sorted
  intro key
  cases kept : isBookkeeping key with
  | false => exact AbsenceLists.get?_store kept _ _
  | true =>
    rcases mem_bookkeepingLists.1 (isBookkeeping_iff.1 kept) with rfl | rfl
    · rw [AbsenceLists.get?_store_nulls, AbsenceLists.ofFields, settled.nulls.get?_eq]
    · rw [AbsenceLists.get?_store_forced, AbsenceLists.ofFields, settled.forced.get?_eq]

/-- A struct whose lists are settled changes only inside its fields. -/
theorem recordedFields_eq (settled : isTracked fields = true → policy.Settled path fields)
    (sorted : Keyed.Ascending fields) (inside : policy.recordInFields path fields = fields) :
    policy.recordedFields path fields = fields := by
  rw [recordedFields, inside]
  split
  · next tracked =>
    have lists := settled tracked
    rw [AbsenceLists.noteFields_of_notes (AbsenceLists.ascending_ofFields fields) policy path
      fun _ member => lists.notes sorted.nodup member]
    exact lists.store_ofFields sorted
  · rfl

end Settled

/-- Recording leaves a value alone exactly if all lists that are kept in it are settled. -/
theorem recordIn_eq_self_iff {v : Value} (formed : v.WellFormed) :
    policy.recordIn path v = v ↔ ∀ place fields, policy.StructAt path v place fields →
      isTracked fields = true → policy.Settled place fields := by
  constructor
  · intro same place fields inside tracked
    obtain ⟨route, rfl, leads, recorded⟩ := inside.exists_route formed
    rw [same, leads] at recorded
    -- What stands there after recording stood there before, so it was recorded already.
    have lists := listsAbsences_recordedFields policy (path ++ route)
      (formed.at? leads).distinct tracked
    rwa [← Value.object.inj (Option.some.inj recorded)] at lists
  · intro settled
    -- By induction nothing changes inside the parts, and settled lists are stored as they are.
    induction v using Value.inductionOn generalizing path with
    | array items ih =>
      rw [recordIn]
      refine congrArg Value.array (List.ext_getElem? fun i => ?_)
      rw [getElem?_recordInItems, Nat.zero_add]
      cases found : items[i]? with
      | none => rfl
      | some item =>
        have member := List.mem_of_getElem? found
        rw [Option.map_some, ih item member (Value.wellFormed_array.1 formed item member)
          fun place fields inside => settled place fields (.item found inside)]
    | object fields ih =>
      obtain ⟨sorted, each⟩ := Value.wellFormed_object.1 formed
      have inside : policy.recordInFields path fields = fields := by
        rw [recordInFields_eq]
        refine (List.map_congr_left fun entry member => ?_).trans (List.map_id _)
        rw [id]
        split
        · rfl
        · next visited =>
          have visited : policy.Visited path entry := by simpa [Visited] using visited
          rw [ih entry member (each entry member) fun place fields inside =>
            settled place fields (.field member visited.1 visited.2 inside)]
      rw [recordIn_fields, Settled.recordedFields_eq (settled path fields .here) sorted inside]
    | _ => rfl

end Settled

/--
Recording what has been recorded changes nothing.

It changes nothing the first time either exactly if every struct that is looked at and keeps both
lists has settled ones.
-/
theorem recording_again_changes_nothing (policy : Policy) {v : Value} (formed : v.WellFormed) :
    policy.recordIn Path.root (policy.recordIn Path.root v) = policy.recordIn Path.root v ∧
    (policy.recordIn Path.root v = v ↔
      ∀ place fields, policy.StructAt Path.root v place fields → isTracked fields = true →
        policy.Settled place fields) :=
  ⟨recordIn_recordIn policy Path.root formed, recordIn_eq_self_iff formed⟩

/-- Clutter is gone after the first time, and there is nothing left to do for a second. -/
theorem recording_again_changes_nothing_of_cluttered :
    watched.recordIn Path.root cluttered ≠ cluttered ∧
      watched.recordIn Path.root (watched.recordIn Path.root cluttered) =
        watched.recordIn Path.root cluttered :=
  ⟨by decide, (recording_again_changes_nothing watched (by decide)).1⟩

end Policy

end Triversion
