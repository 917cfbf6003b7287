import Triversion.Proofs.Shape.Route

/-!
Maps in values of a shape.

A map is found behind any steps that a shape knows. What is rebuilt of a value is rebuilt part by
part on the way there, whatever the shape does with the other parts.
-/

namespace Triversion.Shape

/--
A map at the end of a route into a value, with the shape of what it holds and with its entries.

It may stand behind optionals, items, parts of tuples, entries of other maps and fields of records.
A field that is never read is written as it always is, unless it is always left out.
-/
inductive MapAt : Shape → Value → Path → Shape → Fields → Prop where
  | here {decimalKeys : Bool} {inner : Shape} {entries : Fields} :
    MapAt (.map decimalKeys inner) (.object entries) [] inner entries
  | optional {shape inner : Shape} {v : Value} {route : Path} {entries : Fields}
    (inside : MapAt shape v route inner entries) : MapAt (.optional shape) v route inner entries
  | item {shape inner : Shape} {v : Value} {items : List Value} {i : Nat} {route : Path}
    {entries : Fields} (found : items[i]? = some v) (inside : MapAt shape v route inner entries) :
    MapAt (.list shape) (.array items) (.index i :: route) inner entries
  | tuple {shapes : List Shape} {shape inner : Shape} {v : Value} {items : List Value} {i : Nat}
    {route : Path} {entries : Fields} (declared : shapes[i]? = some shape)
    (found : items[i]? = some v) (inside : MapAt shape v route inner entries) :
    MapAt (.tuple shapes) (.array items) (.index i :: route) inner entries
  | entry {decimalKeys : Bool} {shape inner : Shape} {v : Value} {outer : Fields} {k : String}
    {route : Path} {entries : Fields} (found : Keyed.get? k outer = some v)
    (inside : MapAt shape v route inner entries) :
    MapAt (.map decimalKeys shape) (.object outer) (.key k :: route) inner entries
  | field {rule : RecordRule} {fields : List (FieldRule × Shape)} {field : FieldRule × Shape}
    {inner : Shape} {v : Value} {given : Fields} {route : Path} {entries : Fields}
    (member : field ∈ fields) (found : Keyed.get? field.1.name given = some v)
    (written : ∀ pinned, field.1.pinned = some pinned → field.1.keeps pinned = true)
    (inside : MapAt field.2 v route inner entries) :
    MapAt (.record rule fields) (.object given) (.field field.1.name :: route) inner entries

variable {shape inner : Shape} {v w : Value} {route : Path} {entries : Fields}

/-- What an object stands in is neither null nor a sequence without items. -/
theorem isSolid_of_at?_object (found : v.at? route = some (.object entries)) :
    v.isSolid = true := by
  -- What is changed below stays solid, also where nothing is changed.
  have same : v.modifyAt route id = v := Value.modifyAt_eq_self fun _ _ => rfl
  rw [← same]
  exact Value.isSolid_modifyAt found rfl

/-- A map is found at its route. -/
theorem MapAt.at? (map : MapAt shape v route inner entries) :
    v.at? route = some (.object entries) := by
  induction map with
  | here => rfl
  | optional _ ih => exact ih
  | item found _ ih | tuple _ found _ ih | entry found _ ih | field _ found _ _ ih =>
    rw [Value.at?, Value.step?, found, Option.bind_some, ih]

/-- A sequence is rebuilt item by item. -/
theorem exists_of_rebuild_list {items : List Value}
    (rebuilt : (Shape.list shape).rebuild (.array items) = some w) :
    ∃ results, w = .array results ∧
      ∀ i : Nat, items[i]?.map shape.rebuild = results[i]?.map some := by
  simp only [rebuild] at rebuilt
  obtain ⟨results, passed, rfl⟩ := Option.map_eq_some_iff.1 rebuilt
  exact ⟨results, rfl, getElem?_of_mapM passed⟩

/-- A map is rebuilt entry by entry, and its keys stay. -/
theorem exists_of_rebuild_map {decimalKeys : Bool}
    (rebuilt : (Shape.map decimalKeys shape).rebuild (.object entries) = some w) :
    ∃ kept, w = .object kept ∧ kept.map (·.1) = entries.map (·.1) ∧
      ∀ k, (Keyed.get? k entries).map shape.rebuild = (Keyed.get? k kept).map some := by
  simp only [rebuild] at rebuilt
  split at rebuilt
  · simp at rebuilt
  · obtain ⟨kept, passed, rfl⟩ := Option.map_eq_some_iff.1 rebuilt
    exact ⟨kept, rfl, names_of_mapM passed, get?_of_mapM passed⟩

/-- Each part of a tuple is rebuilt in its place. -/
theorem exists_of_rebuild_tuple {shapes : List Shape} {items : List Value}
    (rebuilt : (Shape.tuple shapes).rebuild (.array items) = some w) :
    ∃ results, w = .array results ∧ ∀ (i : Nat) (shape : Shape), shapes[i]? = some shape →
      items[i]?.map shape.rebuild = results[i]?.map some := by
  simp only [rebuild] at rebuilt
  obtain ⟨results, passed, rfl⟩ := Option.map_eq_some_iff.1 rebuilt
  refine ⟨results, rfl, ?_⟩
  clear rebuilt
  -- Shapes and items are walked together, and both are used up.
  induction shapes generalizing items results with
  | nil => simp
  | cons first rest ih =>
    cases items with
    | nil => simp [rebuildTuple] at passed
    | cons item items =>
      rw [rebuildTuple] at passed
      obtain ⟨head, built, passed⟩ := Option.bind_eq_some_iff.1 passed
      obtain ⟨tail, others, same⟩ := Option.bind_eq_some_iff.1 passed
      obtain rfl : head :: tail = results := Option.some.inj same
      intro i shape declared
      cases i with
      | zero =>
        obtain rfl : first = shape := by simpa using declared
        simpa using built
      | succ i => exact ih tail others i shape (by simpa using declared)

/-- A field of a record is found as it is rebuilt, whatever else the record keeps. -/
theorem exists_of_rebuild_record {rule : RecordRule} {fields : List (FieldRule × Shape)}
    {given : Fields} (distinct : (names fields).Nodup)
    (rebuilt : (Shape.record rule fields).rebuild (.object given) = some w)
    {field : FieldRule × Shape} (member : field ∈ fields) :
    ∃ kept v, w = .object kept ∧ declaredValue rule given field = some v ∧
      (field.1.keeps v = true → Keyed.get? field.1.name kept = some v) ∧
      (field.1.keeps v = false → field.1.pinned = none →
        Keyed.get? field.1.name kept = none) := by
  simp only [rebuild] at rebuilt
  split at rebuilt
  · simp at rebuilt
  · obtain ⟨declared, named, rfl⟩ := Option.map_eq_some_iff.1 rebuilt
    obtain ⟨v, found, stands⟩ := get?_of_rebuildNamed distinct named field member
    have inside := distinct.sublist (names_of_rebuildNamed named)
    refine ⟨_, v, rfl, found, fun keeps => ?_, fun drops unpinned => ?_⟩
    · rw [Keyed.get?_ofList_append inside, stands, if_pos keeps, Option.some_or]
    · -- A name that is declared and read is never among the unknown names that are kept.
      rw [Keyed.get?_ofList_append inside, stands, drops, if_neg Bool.false_ne_true,
        Option.none_or, Keyed.get?_eq_none_iff]
      intro listed
      obtain ⟨entry, stored, same⟩ := List.mem_map.1 listed
      have other := Keyed.mem_of_mem_ofList stored
      split at other
      · have unknown := (List.mem_filter.1 other).2
        simp only [Bool.not_eq_true', List.any_eq_false, Bool.and_eq_true, decide_eq_true_eq,
          Option.isNone_iff_eq_none, not_and] at unknown
        exact unknown field member same.symm unpinned
      · simp at other

end Triversion.Shape
