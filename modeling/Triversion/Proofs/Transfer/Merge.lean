import Triversion.Proofs.Value.WellFormed
import Triversion.Transfer.Merge

/-!
A merge of fields, entries or items is many merges side by side.

Source fields have distinct names, so the merge of one field never sees what another one did. The
result and the journal of the whole can be read off the parts.
-/

namespace Triversion

namespace Journal

/-- Several journals as one, the earlier first. -/
def all (journals : List Journal) : Journal :=
  journals.foldr (· ++ ·) empty

@[simp] theorem all_cons (journal : Journal) (rest : List Journal) :
    all (journal :: rest) = journal ++ all rest :=
  rfl

@[simp] theorem writes_all (journals : List Journal) :
    (all journals).writes = journals.flatMap (·.writes) := by
  induction journals with
  | nil => rfl
  | cons journal rest ih => simp [ih]

@[simp] theorem losses_all (journals : List Journal) :
    (all journals).losses = journals.flatMap (·.losses) := by
  induction journals with
  | nil => rfl
  | cons journal rest ih => simp [ih]

@[simp] theorem maps_all (journals : List Journal) :
    (all journals).maps = journals.flatMap (·.maps) := by
  induction journals with
  | nil => rfl
  | cons journal rest ih => simp [ih]

end Journal

/-- A merge leaves the bookkeeping lists and everything excluded aside. -/
def MergeRules.skips (rules : MergeRules) (path : Path) (name : String) : Bool :=
  isBookkeeping name || rules.exclusions.excludes name (path.field name)

/-- Without exclusions only the bookkeeping lists are left aside. -/
theorem skips_none {maps : List Path} (path : Path) (name : String) :
    MergeRules.skips ⟨.none, maps⟩ path name = isBookkeeping name := by
  simp [MergeRules.skips, Exclusions.excludes, Exclusions.none]

/-- The source fields that a merge takes. -/
def takenFields (rules : MergeRules) (path : Path) (given : Fields) : Fields :=
  given.filter fun entry => !rules.skips path entry.1

theorem takenFields_cons (rules : MergeRules) (path : Path) (name : String) (v : Value)
    (rest : Fields) :
    takenFields rules path ((name, v) :: rest) =
      if rules.skips path name then takenFields rules path rest
      else (name, v) :: takenFields rules path rest := by
  cases skipped : rules.skips path name <;> simp [takenFields, skipped]

/-- The merge of one source field into what the destination has under its name, if anything. -/
def mergeField (rules : MergeRules) (path : Path) (there : Option Value) (name : String)
    (given : Value) : Merged Value :=
  match there with
  | some there => mergeInto rules there (path.field name) given
  | none => ⟨rules.exclusions.strip (path.field name) given, .wrote (path.field name) .remove⟩

theorem mem_takenFields {rules : MergeRules} {path : Path} {given : Fields}
    {entry : String × Value} :
    entry ∈ takenFields rules path given ↔ entry ∈ given ∧ rules.skips path entry.1 = false := by
  rw [takenFields, List.mem_filter, Bool.not_eq_true']

/-- The bookkeeping lists are not taken. -/
theorem ordinary_of_taken {rules : MergeRules} {path : Path} {given : Fields}
    {entry : String × Value} (taken : entry ∈ takenFields rules path given) :
    isBookkeeping entry.1 = false :=
  (Bool.or_eq_false_iff.1 (mem_takenFields.1 taken).2).1

/-- Fields that are taken have the names of the source fields, each once. -/
theorem takenFields_nodup (rules : MergeRules) (path : Path) {given : Fields}
    (distinct : (given.map (·.1)).Nodup) : ((takenFields rules path given).map (·.1)).Nodup :=
  -- Taking fields leaves some of them out, and those that stay keep their order.
  distinct.sublist (List.filter_sublist.map _)

/-- A taken field is taken as the source has it. -/
theorem get?_takenFields (rules : MergeRules) (path : Path) (given : Fields) (name : String) :
    Keyed.get? name (takenFields rules path given) =
      if rules.skips path name then none else Keyed.get? name given := by
  rw [takenFields, Keyed.get?_filter fun name => !rules.skips path name]
  cases rules.skips path name <;> rfl

/-- One more source field is merged on its own, before the fields behind it. -/
theorem mergeFields_cons (rules : MergeRules) (path : Path) (fields : Fields) (name : String)
    (given : Value) (rest : Fields) :
    mergeFields rules path fields ((name, given) :: rest) =
      if rules.skips path name then mergeFields rules path fields rest
      else
        let first := mergeField rules path (Keyed.get? name fields) name given
        let others := mergeFields rules path (Keyed.put name first.result fields) rest
        ⟨others.result, first.journal ++ others.journal⟩ := by
  -- A field is merged into what stands under its name, or enters where nothing does.
  rw [mergeFields, MergeRules.skips]
  cases Keyed.get? name fields <;> rfl

/-- A taken field ends as its own merge, every other field as it was. -/
theorem get?_mergeFields (rules : MergeRules) (path : Path) {given : Fields}
    (distinct : (given.map (·.1)).Nodup) (fields : Fields) (name : String) :
    Keyed.get? name (mergeFields rules path fields given).result =
      ((Keyed.get? name (takenFields rules path given)).map fun v =>
        (mergeField rules path (Keyed.get? name fields) name v).result).or
          (Keyed.get? name fields) := by
  -- The fields behind the first have other names, so they leave its result alone.
  induction given generalizing fields with
  | nil => simp [mergeFields, takenFields, Keyed.get?]
  | cons entry rest ih =>
    obtain ⟨k, v⟩ := entry
    obtain ⟨fresh, distinct⟩ := List.nodup_cons.1 distinct
    rw [mergeFields_cons, takenFields_cons]
    by_cases skipped : rules.skips path k = true
    · rw [if_pos skipped, if_pos skipped, ih distinct]
    · rw [if_neg skipped, if_neg skipped]
      simp only [ih distinct]
      by_cases same : k = name
      · -- The name is taken here, so it cannot be taken once more behind.
        subst same
        have absent : Keyed.get? k (takenFields rules path rest) = none := by
          have inside : (takenFields rules path rest).map (·.1) ⊆ rest.map (·.1) :=
            (List.filter_sublist.map _).subset
          exact Keyed.get?_eq_none_iff.2 fun member => fresh (inside member)
        simp [Keyed.get?, absent]
      · simp [Keyed.get?, same, Keyed.get?_put_of_ne same]

/-- The journal of a merge of fields is made of the journals of the fields that are taken. -/
theorem journal_mergeFields (rules : MergeRules) (path : Path) {given : Fields}
    (distinct : (given.map (·.1)).Nodup) (fields : Fields) :
    (mergeFields rules path fields given).journal =
      Journal.all ((takenFields rules path given).map fun entry =>
        (mergeField rules path (Keyed.get? entry.1 fields) entry.1 entry.2).journal) := by
  -- The induction lets the destination grow, since the first field may enter it.
  induction given generalizing fields with
  | nil => rfl
  | cons entry rest ih =>
    obtain ⟨k, v⟩ := entry
    obtain ⟨fresh, distinct⟩ := List.nodup_cons.1 distinct
    rw [mergeFields_cons, takenFields_cons]
    by_cases skipped : rules.skips path k = true
    · rw [if_pos skipped, if_pos skipped, ih distinct]
    · rw [if_neg skipped, if_neg skipped, List.map_cons, Journal.all_cons]
      simp only [ih distinct]
      congr 2
      refine List.map_congr_left fun entry member => ?_
      -- The fields behind look up what they merge into under names of their own.
      have different : k ≠ entry.1 := by
        have inside : entry.1 ∈ rest.map (·.1) :=
          List.mem_map_of_mem (mem_takenFields.1 member).1
        intro same
        exact fresh (same ▸ inside)
      rw [Keyed.get?_put_of_ne different]

/-- Merging fields keeps the order of the destination's names. -/
theorem ascending_mergeFields (rules : MergeRules) (path : Path) (given : Fields)
    {fields : Fields} (sorted : Keyed.Ascending fields) :
    Keyed.Ascending (mergeFields rules path fields given).result := by
  -- Each step either leaves the fields alone or puts one in its place.
  induction given generalizing fields with
  | nil => exact sorted
  | cons entry rest ih =>
    obtain ⟨k, v⟩ := entry
    rw [mergeFields_cons]
    split
    · exact ih sorted
    · exact ih (Keyed.ascending_put sorted)

/-- A scalar of the right kind takes the place of a scalar. -/
theorem mergeInto_of_scalarFits (rules : MergeRules) (path : Path) {there given : Value}
    (fits : there.scalarFits given = true) :
    mergeInto rules there path given = ⟨given, .wrote path (.restore there.blank)⟩ := by
  have filled : there.isNull = false := by
    cases there <;> first | rfl | simp [Value.scalarFits] at fits
  have scalar : mergeInto rules there path given = mergeScalar rules there path given := by
    cases given with
    | bool b | number n | string s => rw [mergeInto]
    | _ => cases there <;> simp [Value.scalarFits] at fits
  rw [scalar, mergeScalar, filled, if_neg Bool.false_ne_true, if_pos fits]

/-- Every entry of a replaced map is merged into a copy of the shape on its own. -/
theorem mergeEntries_eq (rules : MergeRules) (shape : Value) (path : Path) (given : Fields) :
    mergeEntries rules shape path given =
      ⟨given.map fun entry =>
          (entry.1, (mergeInto rules shape (path.key entry.1) entry.2).result),
        Journal.all (given.map fun entry =>
          (mergeInto rules shape (path.key entry.1) entry.2).journal)⟩ := by
  -- Every entry has a copy of the shape to itself.
  induction given with
  | nil => rfl
  | cons entry rest ih =>
    obtain ⟨k, v⟩ := entry
    simp [mergeEntries, ih]

/-- Every item of a replaced sequence is merged into a copy of the shape on its own. -/
theorem mergeItems_eq (rules : MergeRules) (shape : Value) (path : Path) (i : Nat)
    (given : List Value) :
    mergeItems rules shape path i given =
      ⟨(given.zipIdx i).map fun item =>
          (mergeInto rules shape (path.index item.2) item.1).result,
        Journal.all ((given.zipIdx i).map fun item =>
          (mergeInto rules shape (path.index item.2) item.1).journal)⟩ := by
  induction given generalizing i with
  | nil => rfl
  | cons v rest ih => simp [mergeItems, ih]

/-- An ordinary field is neither of the two bookkeeping lists. -/
theorem isBookkeeping_eq_false {name : String} (ordinary : isBookkeeping name = false) :
    nullFields ≠ name ∧ forceSendFields ≠ name := by
  constructor <;> intro same <;> simp [← same, isBookkeeping, bookkeepingLists] at ordinary

/-- Merging one bookkeeping list leaves all other fields alone. -/
theorem get?_mergeList_of_ne {list name : String} (different : list ≠ name) (known : List String)
    (given fields : Fields) :
    Keyed.get? name (mergeList known given fields list) = Keyed.get? name fields := by
  -- The list is put under its own name, if it is put at all.
  unfold mergeList
  split
  · split
    · exact Keyed.get?_put_of_ne different _ _
    · rfl
  · rfl

/-- Merging the bookkeeping lists leaves all other fields alone. -/
theorem get?_mergeLists {name : String} (ordinary : isBookkeeping name = false)
    (known : List String) (given fields : Fields) :
    Keyed.get? name (mergeLists known given fields) = Keyed.get? name fields := by
  -- The two lists are merged one after the other, and the field is neither of them.
  obtain ⟨notNulls, notForced⟩ := isBookkeeping_eq_false ordinary
  simp only [mergeLists, bookkeepingLists, List.foldl_cons, List.foldl_nil,
    get?_mergeList_of_ne notNulls, get?_mergeList_of_ne notForced]

/-- An ordinary field of a struct ends as the merge of its fields leaves it. -/
theorem get?_mergeObjects (rules : MergeRules) (path : Path) {given : Fields}
    (distinct : (given.map (·.1)).Nodup) (fields : Fields) {name : String}
    (ordinary : isBookkeeping name = false) :
    Keyed.get? name (mergeObjects rules path fields given).result =
      ((Keyed.get? name (takenFields rules path given)).map fun v =>
        (mergeField rules path (Keyed.get? name fields) name v).result).or
          (Keyed.get? name fields) := by
  -- Only the two lists are touched after the fields are merged.
  rw [← get?_mergeFields rules path distinct]
  exact get?_mergeLists ordinary _ _ _

/-- Nothing but the merges of its fields is recorded for a struct. -/
theorem journal_mergeObjects (rules : MergeRules) (path : Path) {given : Fields}
    (distinct : (given.map (·.1)).Nodup) (fields : Fields) :
    (mergeObjects rules path fields given).journal =
      Journal.all ((takenFields rules path given).map fun entry =>
        (mergeField rules path (Keyed.get? entry.1 fields) entry.1 entry.2).journal) :=
  journal_mergeFields rules path distinct fields

/-- A field that the destination lacks is added as it is, and can be removed again. -/
theorem added_mergeObjects {rules : MergeRules} {path : Path} {given fields : Fields}
    (distinct : (given.map (·.1)).Nodup) {name : String} {v : Value}
    (taken : (name, v) ∈ takenFields rules path given) (missing : Keyed.get? name fields = none) :
    ⟨path.field name, .remove⟩ ∈ (mergeObjects rules path fields given).journal.writes ∧
      Keyed.get? name (mergeObjects rules path fields given).result =
        some (rules.exclusions.strip (path.field name) v) := by
  constructor
  · simp only [journal_mergeObjects rules path distinct, Journal.writes_all, List.flatMap_map,
      List.mem_flatMap]
    exact ⟨_, taken, by simp [missing, mergeField, Journal.wrote]⟩
  · rw [get?_mergeObjects rules path distinct fields (ordinary_of_taken taken),
      Keyed.get?_of_mem (takenFields_nodup rules path distinct) taken, missing]
    rfl

/-- What becomes of a bookkeeping list: the source's names that are kept, if it lists any. -/
def mergedList (known : List String) (given : Option Value) (old : Value) : Value :=
  match given with
  | some (.array names) => .array (keptNames known names)
  | _ => old

/-- A merged bookkeeping list stands where the list stood. -/
theorem get?_mergeList_self (list : String) (known : List String) (given fields : Fields) :
    Keyed.get? list (mergeList known given fields list) =
      (Keyed.get? list fields).map (mergedList known (Keyed.get? list given)) := by
  unfold mergeList mergedList
  cases there : Keyed.get? list fields with
  | none => simp [Keyed.has, there]
  | some old =>
    simp only [Keyed.has, there, Option.isSome_some, if_true, Option.map_some]
    cases Keyed.get? list given with
    | none => exact there
    | some v => cases v <;> simp [there]

/-- Each bookkeeping list is merged without regard to the other one. -/
theorem get?_mergeLists_self {list : String} (listed : list ∈ bookkeepingLists)
    (known : List String) (given fields : Fields) :
    Keyed.get? list (mergeLists known given fields) =
      (Keyed.get? list fields).map (mergedList known (Keyed.get? list given)) := by
  have different : nullFields ≠ forceSendFields := by decide
  simp only [bookkeepingLists, List.mem_cons, List.not_mem_nil, or_false] at listed
  simp only [mergeLists, bookkeepingLists, List.foldl_cons, List.foldl_nil]
  rcases listed with rfl | rfl
  · rw [get?_mergeList_of_ne different.symm, get?_mergeList_self]
  · rw [get?_mergeList_self, get?_mergeList_of_ne different]

/-- A merge leaves the bookkeeping lists to the end, and then merges each one on its own. -/
theorem get?_mergeObjects_list {rules : MergeRules} {path : Path} {fields given : Fields}
    (distinct : (given.map (·.1)).Nodup) {list : String} (listed : isBookkeeping list = true) :
    Keyed.get? list (mergeObjects rules path fields given).result =
      (Keyed.get? list fields).map
        (mergedList (fields.map (·.1)) (Keyed.get? list given)) := by
  have stays : Keyed.get? list (mergeFields rules path fields given).result =
      Keyed.get? list fields := by
    rw [get?_mergeFields _ _ distinct, get?_takenFields, MergeRules.skips, listed, Bool.true_or,
      if_pos rfl, Option.map_none, Option.none_or]
  change Keyed.get? list (mergeLists _ _ _) = _
  rw [get?_mergeLists_self (List.contains_iff_mem.1 listed), stays]

/-- What becomes of a field that is not taken: a list of names is merged, and all else is left. -/
def leftField (fields given : Fields) (name : String) (old : Value) : Value :=
  if isBookkeeping name then mergedList (fields.map (·.1)) (Keyed.get? name given) old else old

/-- What is left of a field is what was there, or names that are kept of a list. -/
theorem leftField_cases (fields given : Fields) (name : String) (old : Value) :
    leftField fields given name old = old ∨
      ∃ names, leftField fields given name old = .array (keptNames (fields.map (·.1)) names) := by
  unfold leftField mergedList
  split
  · split
    · exact .inr ⟨_, rfl⟩
    · exact .inl rfl
  · exact .inl rfl

/-- A field that a merge does not take is left, or merged as a list. -/
theorem get?_mergeObjects_of_untaken {rules : MergeRules} {path : Path} {fields given : Fields}
    (distinct : (given.map (·.1)).Nodup) {name : String}
    (untaken : Keyed.get? name (takenFields rules path given) = none) :
    Keyed.get? name (mergeObjects rules path fields given).result =
      (Keyed.get? name fields).map (leftField fields given name) := by
  unfold leftField
  cases listed : isBookkeeping name with
  | true =>
    simp only [if_true]
    exact get?_mergeObjects_list distinct listed
  | false =>
    rw [get?_mergeObjects rules path distinct fields listed, untaken, Option.map_none,
      Option.none_or]
    simp

/-- A name that is kept of a list is an ordinary name that the destination knows. -/
theorem mem_keptNames {known : List String} {names : List Value} {v : Value}
    (kept : v ∈ keptNames known names) :
    ∃ name, v = .string name ∧ name ∈ known ∧ isBookkeeping name = false := by
  have passes := (List.mem_filter.1 kept).2
  cases v with
  | string name => exact ⟨name, rfl, by simpa using passes⟩
  | _ => simp at passes

/-- The names that are kept of a list are texts. -/
theorem exists_keptNames (known : List String) (names : List Value) :
    ∃ texts : List String, keptNames known names = texts.map .string :=
  Value.exists_texts fun _ member => (mem_keptNames member).imp fun _ kept => kept.1

/-- Of a list, the names that are known are kept, wherever they are known from. -/
theorem keptNames_congr {known others : List String} (same : ∀ name, name ∈ known ↔ name ∈ others)
    (names : List Value) : keptNames known names = keptNames others names := by
  refine List.filter_congr fun item _ => ?_
  cases item with
  | string name => simp only [List.contains_eq_mem, same]
  | _ => rfl

theorem mergedList_congr {known others : List String} (same : ∀ name, name ∈ known ↔ name ∈ others)
    (given : Option Value) (old : Value) :
    mergedList known given old = mergedList others given old := by
  cases given with
  | none => rfl
  | some v =>
    cases v with
    | array names => exact congrArg Value.array (keptNames_congr same names)
    | _ => rfl

/-- Merging one bookkeeping list keeps the order of the names. -/
theorem ascending_mergeList (known : List String) (given : Fields) {fields : Fields}
    (list : String) (sorted : Keyed.Ascending fields) :
    Keyed.Ascending (mergeList known given fields list) := by
  unfold mergeList
  split
  · split
    · exact Keyed.ascending_put sorted
    · exact sorted
  · exact sorted

/-- Merging a struct keeps the order of the destination's names. -/
theorem ascending_mergeObjects (rules : MergeRules) (path : Path) (given : Fields)
    {fields : Fields} (sorted : Keyed.Ascending fields) :
    Keyed.Ascending (mergeObjects rules path fields given).result :=
  ascending_mergeList _ _ _
    (ascending_mergeList _ _ _ (ascending_mergeFields rules path given sorted))

end Triversion
