import Triversion.Proofs.Shape.Route

/-!
Values in the mould of a shape.

Such a value has the kinds of the shape all the way down, but its numbers may be out of bounds and
its words may be unknown. Every value that a shape writes is in its mould, and so is its blank.
-/

namespace Triversion.Shape

/-- A value of the kinds that a shape describes; a record holds declared fields alone. -/
inductive Moulds : Shape → Value → Prop where
  | bool (b : Bool) : Moulds .bool (.bool b)
  | string (s : String) : Moulds .string (.string s)
  | integer (low high i : Int) : Moulds (.integer low high) (.whole i)
  | float (d : Double) : Moulds .float (.number (.float d))
  | unit : Moulds .unit .null
  | choice (words : List String) (word : String) : Moulds (.choice words) (.string word)
  | absent (shape : Shape) : Moulds (.optional shape) .null
  | present {shape : Shape} {v : Value} (inside : Moulds shape v) : Moulds (.optional shape) v
  | list {shape : Shape} {items : List Value} (each : ∀ item ∈ items, Moulds shape item) :
    Moulds (.list shape) (.array items)
  | map (decimalKeys : Bool) {shape : Shape} {entries : Fields}
    (each : ∀ entry ∈ entries, Moulds shape entry.2) :
    Moulds (.map decimalKeys shape) (.object entries)
  | record (rule : RecordRule) {fields : List (FieldRule × Shape)} {given : Fields}
    (declared : ∀ name ∈ given.map (·.1), name ∈ names fields)
    (complete : ∀ field ∈ fields, field.1.omission = .never → field.1.name ∈ given.map (·.1))
    (each : ∀ field ∈ fields, ∀ v, (field.1.name, v) ∈ given → Moulds field.2 v) :
    Moulds (.record rule fields) (.object given)

/-- The blank of a value is in the same mould. -/
theorem Moulds.blank {shape : Shape} {v : Value} (moulds : shape.Moulds v) :
    shape.Moulds v.blank := by
  induction moulds with
  | bool b => exact .bool false
  | string s => exact .string ""
  | integer low high i => exact .integer low high 0
  | float d => exact .float .zero
  | unit => exact .unit
  | choice words word => exact .choice words ""
  | absent shape => exact .absent shape
  | present inside ih => exact .present ih
  | list each ih => exact .list fun _ member => absurd member List.not_mem_nil
  | map decimalKeys each ih =>
    rw [Value.blank, Value.blankFields_eq]
    refine .map decimalKeys fun entry member => ?_
    obtain ⟨old, listed, rfl⟩ := List.mem_map.1 member
    exact ih old listed
  | record rule declared complete each ih =>
    -- A blank object keeps its names, and holds the blank of each of its fields.
    rw [Value.blank, Value.blankFields_eq]
    refine .record rule ?_ ?_ fun field member v listed => ?_
    · rwa [List.map_map]
    · rwa [List.map_map]
    · obtain ⟨⟨name, old⟩, before, same⟩ := List.mem_map.1 listed
      obtain ⟨rfl, rfl⟩ := Prod.mk.inj same
      exact ih field member old before

/-- A step leads from a value in a mould to a part in the mould of a part. -/
theorem Moulds.step? {shape : Shape} {v part : Value} {segment : Segment}
    (moulds : shape.Moulds v) (found : v.step? segment = some part) :
    ∃ inner, Step segment shape inner ∧ inner.Moulds part := by
  induction moulds with
  | present inside ih =>
    obtain ⟨inner, step, within⟩ := ih found
    exact ⟨inner, .optional step, within⟩
  | list each ih =>
    cases segment with
    | index i => exact ⟨_, .item i, each part (List.mem_of_getElem? found)⟩
    | field name => simp [Value.step?] at found
    | key k => simp [Value.step?] at found
  | map decimalKeys each ih =>
    rw [Value.step?_object] at found
    obtain ⟨name, named, held⟩ := Option.bind_eq_some_iff.1 found
    exact ⟨_, .entry named _ _, each _ (Keyed.mem_of_get? held)⟩
  | record rule declared complete each ih =>
    rw [Value.step?_object] at found
    obtain ⟨name, named, held⟩ := Option.bind_eq_some_iff.1 found
    have listed := Keyed.mem_of_get? held
    obtain ⟨field, member, rfl⟩ := List.mem_map.1 (declared name (List.mem_map.2 ⟨_, listed, rfl⟩))
    exact ⟨field.2, .field member named, each field member part listed⟩
  | _ => cases segment <;> simp [Value.step?, Value.whole] at found

/-- A route leads from a value in a mould to a part in the mould of a part. -/
theorem Moulds.at? {shape : Shape} {v part : Value} {path : Path} (moulds : shape.Moulds v)
    (found : v.at? path = some part) : ∃ inner, Leads path shape inner ∧ inner.Moulds part := by
  induction path generalizing shape v with
  | nil => exact ⟨shape, rfl, Option.some.inj found ▸ moulds⟩
  | cons segment rest ih =>
    obtain ⟨next, first, later⟩ := Option.bind_eq_some_iff.1 found
    obtain ⟨middle, step, within⟩ := moulds.step? first
    obtain ⟨inner, leads, inside⟩ := ih within later
    exact ⟨inner, ⟨middle, step, leads⟩, inside⟩

section Struct

variable {rule : RecordRule} {fields : List (FieldRule × Shape)} {given : Fields}

/-- A struct in the mould of a record holds declared names alone. -/
theorem Moulds.mem_names (moulds : (Shape.record rule fields).Moulds (.object given))
    {name : String} {v : Value} (held : Keyed.get? name given = some v) : name ∈ names fields := by
  cases moulds with
  | record _ declared _ _ => exact declared name (List.mem_map.2 ⟨_, Keyed.mem_of_get? held, rfl⟩)

/-- It has nothing under any other name. -/
theorem Moulds.get?_of_unknown (moulds : (Shape.record rule fields).Moulds (.object given))
    {name : String} (unknown : name ∉ names fields) : Keyed.get? name given = none :=
  Option.eq_none_iff_forall_not_mem.2 fun _ held => unknown (moulds.mem_names held)

/-- A struct in the mould of a record that writes all its fields holds each of them in its mould. -/
theorem Moulds.get? (all : writesAll rule fields = true)
    (moulds : (Shape.record rule fields).Moulds (.object given)) {field : FieldRule × Shape}
    (member : field ∈ fields) :
    ∃ v, Keyed.get? field.1.name given = some v ∧ field.2.Moulds v := by
  cases moulds with
  | record _ _ complete each =>
    have listed := complete field member ((writesAll_iff.1 all).2.2 field member).1
    obtain ⟨v, held⟩ : ∃ v, Keyed.get? field.1.name given = some v :=
      Option.ne_none_iff_exists'.1 fun missing => Keyed.get?_eq_none_iff.1 missing listed
    exact ⟨v, held, each field member v (Keyed.mem_of_get? held)⟩

/-- What is in the mould of a list of names is a list of texts. -/
theorem Moulds.exists_strings {shape : Shape} (isList : shape.isNameList = true) {v : Value}
    (moulds : shape.Moulds v) : ∃ texts, v = Value.strings texts := by
  unfold isNameList at isList
  split at isList
  · cases moulds with
    | list each =>
      obtain ⟨texts, rfl⟩ := Value.exists_texts fun item member => by
        cases each item member with
        | string text => exact ⟨text, rfl⟩
      exact ⟨texts, rfl⟩
  · simp at isList

end Struct

/-- A struct in the mould of a steady shape holds every field that it declares. -/
theorem Moulds.mem_of_step {shape inner : Shape} (steady : shape.everywhere isSteady = true)
    {fields : Fields} (moulds : shape.Moulds (.object fields)) (notMap : shape.core.isMap = false)
    {name : String} (step : Step (.field name) shape inner) : name ∈ fields.map (·.1) := by
  generalize object : Value.object fields = v at moulds
  induction moulds with
  | present _ ih =>
    cases step with
    | optional step => exact ih (everywhere_optional.1 steady).2 notMap step object
  | map => simp [core, isMap] at notMap
  | record rule declared complete each =>
    obtain rfl := Value.object.inj object
    cases step with
    | field member named =>
      rw [Option.some.inj named]
      have all := (everywhere_record.1 steady).1
      exact complete _ member ((writesAll_iff.1 all).2.2 _ member).1
  | _ => simp [Value.whole] at object

/-- A value that is rebuilt as it is is in the mould of its shape. -/
theorem moulds_of_rebuild {shape : Shape} (anchored : shape.everywhere isAnchored = true)
    {v : Value} (formed : v.WellFormed) (fixed : shape.rebuild v = some v) : shape.Moulds v := by
  -- Whatever stands at a step is rebuilt as it is, and has the shape that the step leads to.
  induction shape using inductionOn generalizing v with
  | bool => cases v <;> simp [rebuild] at fixed; exact .bool _
  | string => cases v <;> simp [rebuild] at fixed; exact .string _
  | integer low high =>
    cases v with
    | number n =>
      cases n with
      | whole i => exact .integer low high i
      | float d => simp [rebuild] at fixed
    | _ => simp [rebuild] at fixed
  | float =>
    cases v with
    | number n =>
      cases n with
      | whole i => simp [rebuild, rebuildFloat] at fixed
      | float d => exact .float d
    | _ => simp [rebuild, rebuildFloat] at fixed
  | unit =>
    cases v with
    | null => exact .unit
    | _ => simp [rebuild, Value.isNull] at fixed
  | choice words =>
    cases v with
    | string word => exact .choice words word
    | object fields =>
      -- A word that is given as a key is written as a text.
      simp only [rebuild, rebuildChoice] at fixed
      split at fixed <;> simp at fixed
    | _ => simp [rebuild, rebuildChoice] at fixed
  | any | tuple shapes ih => simp [Shape.everywhere, isAnchored] at anchored
  | optional shape ih =>
    rw [rebuild] at fixed
    split at fixed
    · obtain rfl := Option.some.inj fixed
      exact .absent shape
    · exact .present (ih (everywhere_optional.1 anchored).2 formed fixed)
  | list shape ih =>
    have inside := (everywhere_list.1 anchored).2
    cases v with
    | array items =>
      obtain ⟨results, passed, same⟩ := Option.map_eq_some_iff.1 (by rwa [rebuild] at fixed)
      obtain rfl := Value.array.inj same
      refine .list fun item member => ih inside (Value.wellFormed_array.1 formed item member) ?_
      exact List.map_inj_left.1 (mapM_eq_some_iff_map.1 passed) item member
    | _ => simp [rebuild] at fixed
  | map decimalKeys shape ih =>
    have inside := (everywhere_map.1 anchored).2
    cases v with
    | object entries =>
      refine .map decimalKeys fun entry member => ?_
      have held := Keyed.get?_of_mem formed.distinct member
      have first : (Value.object entries).step? (.key entry.1) = some entry.2 := held
      obtain ⟨inner, step, rebuilt, _⟩ := rebuild_modifyStep
        (holds_of_everywhere anchored) fixed first
      cases step
      exact ih inside (formed.of_get? held) rebuilt
    | _ => simp [rebuild] at fixed
  | record rule fields ih =>
    obtain ⟨here, inside⟩ := everywhere_record.1 anchored
    have reads := isAnchored.readsAll here
    obtain ⟨forgets, distinct, _⟩ := readsAll_iff.1 reads
    obtain ⟨given, rfl, rebuilds⟩ := rebuilds_of_fixed forgets distinct fixed
    refine .record rule ?_ ?_ ?_
    · intro name listed
      by_cases known : name ∈ names fields
      · exact known
      · exact absurd listed (Keyed.get?_eq_none_iff.1 (rebuilds.declared name known))
    · -- A field that is always written is there.
      intro field member never
      obtain ⟨v, _, stands⟩ := rebuilds.each field member
      rw [FieldRule.keeps, never, if_pos rfl] at stands
      exact List.mem_map.2 ⟨_, Keyed.mem_of_get? stands, rfl⟩
    · intro field member v listed
      have held := Keyed.get?_of_mem formed.distinct listed
      obtain ⟨other, another, same, rebuilt⟩ := rebuilds.field_of_get? reads held
      obtain rfl := eq_of_names distinct another member same
      exact ih other member (inside other member) (formed.of_get? held) rebuilt

/-- In the mould of a steady shape an accepted value is rebuilt as it is. -/
theorem eq_of_moulds {shape : Shape} {v w : Value} (steady : shape.everywhere isSteady = true)
    (formed : v.WellFormed) (moulds : shape.Moulds v) (rebuilt : shape.rebuild v = some w) :
    w = v := by
  induction moulds generalizing w with
  | bool | string => exact (Option.some.inj rebuilt).symm
  | integer low high i =>
    obtain ⟨_, same⟩ : (low ≤ i ∧ i ≤ high) ∧ Value.whole i = w := by
      simpa [rebuild, Value.whole] using rebuilt
    exact same.symm
  | float d => exact (Option.some.inj rebuilt).symm
  | unit => exact (Option.some.inj rebuilt).symm
  | choice words word =>
    obtain ⟨_, same⟩ : words.contains word = true ∧ .string word = w := by
      simpa [rebuild, rebuildChoice] using rebuilt
    exact same.symm
  | absent shape => exact (Option.some.inj rebuilt).symm
  | @present shape v inside ih =>
    rw [rebuild] at rebuilt
    split at rebuilt
    · next null =>
      obtain rfl := Value.isNull_iff.1 null
      exact (Option.some.inj rebuilt).symm
    · exact ih (everywhere_optional.1 steady).2 formed rebuilt
  | @list shape items each ih =>
    obtain ⟨results, passed, rfl⟩ := Option.map_eq_some_iff.1 (by rwa [rebuild] at rebuilt)
    have inside := (everywhere_list.1 steady).2
    refine congrArg Value.array (List.ext_getElem? fun i => ?_)
    have same := getElem?_of_mapM passed i
    cases held : items[i]? with
    | none => simpa [held] using same.symm
    | some item =>
      rw [held] at same
      obtain ⟨settled, stands, taken⟩ := Option.map_eq_some_iff.1 same.symm
      have member := List.mem_of_getElem? held
      rw [stands, ih item member inside (Value.wellFormed_array.1 formed item member) taken.symm]
  | @map decimalKeys shape entries each ih =>
    have inside := (everywhere_map.1 steady).2
    simp only [rebuild] at rebuilt
    split at rebuilt
    · simp at rebuilt
    · obtain ⟨results, passed, rfl⟩ := Option.map_eq_some_iff.1 rebuilt
      refine congrArg Value.object (List.ext_getElem? fun i => ?_)
      have same := getElem?_of_mapM passed i
      cases held : entries[i]? with
      | none => simpa [held] using same.symm
      | some entry =>
        rw [held] at same
        obtain ⟨settled, stands, taken⟩ := Option.map_eq_some_iff.1 same.symm
        obtain ⟨v, rebuiltEntry, rfl⟩ := Option.map_eq_some_iff.1 taken.symm
        have member := List.mem_of_getElem? held
        have formedEntry := (Value.wellFormed_object.1 formed).2 entry member
        rw [stands, ih entry member inside formedEntry rebuiltEntry]
  | @record rule fields given declared complete each ih =>
    obtain ⟨here, inside⟩ := everywhere_record.1 steady
    obtain ⟨forgets, distinct, written⟩ := writesAll_iff.1 here
    obtain ⟨kept, rfl, rebuilds⟩ := (rebuild_object_iff forgets distinct).1 rebuilt
    -- Both objects ascend and hold the declared names.
    refine congrArg Value.object (rebuilds.sorted.ext (Value.wellFormed_object.1 formed).1
      fun name => ?_)
    by_cases known : name ∈ names fields
    · obtain ⟨field, member, rfl⟩ := List.mem_map.1 known
      obtain ⟨v, stands, taken⟩ := rebuilds.get? here member
      obtain ⟨⟨_, old⟩, listed, rfl⟩ :=
        List.mem_map.1 (complete field member (written field member).1)
      have held := Keyed.get?_of_mem formed.distinct listed
      rw [stands, held, ih field member old listed (inside field member) (formed.of_get? held)
        (taken old held)]
    · rw [rebuilds.declared name known]
      exact (Keyed.get?_eq_none_iff.2 fun listed => known (declared name listed)).symm

end Triversion.Shape
