import Triversion.Catalog
import Triversion.Proofs.Policy.Effect
import Triversion.Proofs.Policy.Renaming
import Triversion.Proofs.Resource.Freezing
import Triversion.Proofs.Shape.Places

/-!
Maps under a policy.

A map is written as an object like a struct is, and neither the check nor the recording of absent
fields tells the two apart. So the entries of a map are data as long as their keys are not the names
of the bookkeeping lists, and this module says what becomes of them exactly.
-/

namespace Triversion

namespace Policy

open Shape (MapAt)

variable {policy : Policy} {path route : Path} {shape inner : Shape} {v w : Value}
  {entries : Fields}

/--
What becomes of the entries of a map.

The keys stay, and so does every value in which no struct keeps both lists. The two entries under
the names of the lists are excepted if both hold a sequence.
-/
structure HoldsEntries (entries kept : Fields) : Prop where
  keys : kept.map (·.1) = entries.map (·.1)
  values : ∀ k part, Keyed.get? k entries = some part →
    (isBookkeeping k = true → isTracked entries = false) →
    (∀ fields, StructIn fields part → isTracked fields = false) → Keyed.get? k kept = some part

/-- Where no struct keeps both lists, there is nothing to record. -/
theorem recordIn_of_untracked (formed : v.WellFormed)
    (untracked : ∀ fields, StructIn fields v → isTracked fields = false) :
    policy.recordIn path v = v :=
  (recordIn_eq_self_iff formed).2 fun _ fields inside tracked => by
    simp [untracked fields inside.structIn] at tracked

/-- Recording turns nothing into null, and null into nothing else. -/
@[simp] theorem isNull_recordIn (policy : Policy) (path : Path) (v : Value) :
    (policy.recordIn path v).isNull = v.isNull := by
  cases v with
  | object fields => rw [recordIn_fields]; rfl
  | _ => rfl

/-- Recording changes the entries of a map one by one, and its rebuild keeps their keys. -/
theorem holdsEntries_of_map {decimalKeys : Bool} (formed : (Value.object entries).WellFormed)
    (fixed : (Shape.map decimalKeys inner).rebuild (.object entries) = some (.object entries))
    (rebuilt : (Shape.map decimalKeys inner).rebuild (policy.recordIn path (.object entries)) =
      some w) : ∃ kept, w = .object kept ∧ HoldsEntries entries kept := by
  -- Recording changes the surface of no value, so the keys are the same.
  have names : (policy.recordedFields path entries).map (·.1) = entries.map (·.1) := by
    have same := surface_recordIn policy path formed
    rw [recordIn_fields, Value.surface, Value.surface, Value.object.injEq] at same
    simpa [Function.comp_def] using congrArg (List.map Prod.fst) same
  rw [recordIn_fields] at rebuilt
  obtain ⟨_, equal, -, before⟩ := Shape.exists_of_rebuild_map fixed
  obtain rfl := Value.object.inj equal
  obtain ⟨kept, rfl, keys, after⟩ := Shape.exists_of_rebuild_map rebuilt
  refine ⟨kept, rfl, keys.trans names, fun k part held data plain => ?_⟩
  have stays : Keyed.get? k (policy.recordedFields path entries) = some part := by
    cases list : isBookkeeping k with
    -- A list is written over only if both are kept, which is excluded here.
    | true => rw [get?_recordedFields_of_list policy path (data list) list, held]
    | false =>
      rw [get?_recordedFields policy path entries list, held, Option.map_some,
        recordIn_of_untracked (formed.of_get? held) plain, ite_self]
  -- The value was rebuilt as it is before, so it is rebuilt as it is once more.
  have same := (before k).symm.trans ((congrArg _ (held.trans stays.symm)).trans (after k))
  rw [held] at same
  simpa using same.symm

/-- How a part on the way to a map comes out: as it was, or rebuilt from what was recorded of it. -/
inductive Emerges (policy : Policy) (path : Path) (shape : Shape) (route : Path) (part : Value) :
    Value → Prop where
  | same : Emerges policy path shape route part part
  | recorded {result : Value} (spares : policy.SparesLists path part route)
    (rebuilt : shape.rebuild (policy.recordIn path part) = some result) :
    Emerges policy path shape route part result

section Steps

variable {part : Value} {name : String}

/-- A part of a struct on the way to a map is recorded by itself, or stays as it is. -/
theorem exists_recorded_part {outer : Fields} {segment : Segment}
    (spares : policy.SparesLists path (.object outer) (segment :: route))
    (named : segment.name? = some name) (found : Keyed.get? name outer = some part) :
    ∃ recorded, Keyed.get? name (policy.recordedFields path outer) = some recorded ∧
      ∀ {shape : Shape} {result : Value}, shape.rebuild part = some part →
        shape.rebuild recorded = some result →
        Emerges policy (path.field name) shape route part result := by
  have same : ∀ {shape : Shape} {result : Value}, shape.rebuild part = some part →
      shape.rebuild part = some result →
      Emerges policy (path.field name) shape route part result := by
    intro shape result before after
    rw [← Option.some.inj (before.symm.trans after)]
    exact .same
  cases list : isBookkeeping name with
  | true =>
    rw [get?_recordedFields_of_list policy path (spares.untracked named list) list]
    exact ⟨part, found, same⟩
  | false =>
    rw [get?_recordedFields policy path outer list, found, Option.map_some]
    by_cases system : policy.roleAt (path.field name) = .system
    · rw [if_pos system]
      exact ⟨part, rfl, same⟩
    · rw [if_neg system]
      exact ⟨_, rfl, fun _ after => .recorded (spares.field named found list system) after⟩

/-- What stands at a position on the way to a map is recorded and rebuilt by itself. -/
theorem emerges_of_position {items results : List Value} {i : Nat} (found : items[i]? = some part)
    (spares : policy.SparesLists path (.array items) (.index i :: route))
    (before : items[i]?.map shape.rebuild = items[i]?.map some)
    (after : (policy.recordInItems path 0 items)[i]?.map shape.rebuild = results[i]?.map some) :
    shape.rebuild part = some part ∧
      ∃ result, (Value.array results).step? (.index i) = some result ∧
        Emerges policy (path.index i) shape route part result := by
  rw [getElem?_recordInItems, Nat.zero_add, found] at after
  rw [found, Option.map_some, Option.map_some, Option.some.injEq] at before
  obtain ⟨result, stands, equal⟩ := Option.map_eq_some_iff.1 after.symm
  exact ⟨before, result, stands, .recorded (spares.item found) equal.symm⟩

/-- An item on the way to a map is recorded and rebuilt by itself. -/
theorem emerges_item {items : List Value} {i : Nat} (found : items[i]? = some part)
    (fixed : (Shape.list shape).rebuild (.array items) = some (.array items))
    (spares : policy.SparesLists path (.array items) (.index i :: route))
    (rebuilt : (Shape.list shape).rebuild (policy.recordIn path (.array items)) = some w) :
    shape.rebuild part = some part ∧ ∃ result, w.step? (.index i) = some result ∧
      Emerges policy (path.index i) shape route part result := by
  rw [recordIn] at rebuilt
  obtain ⟨_, equal, before⟩ := Shape.exists_of_rebuild_list fixed
  obtain rfl := Value.array.inj equal
  obtain ⟨results, rfl, after⟩ := Shape.exists_of_rebuild_list rebuilt
  exact emerges_of_position found spares (before i) (after i)

/-- A part of a tuple on the way to a map is recorded and rebuilt by itself. -/
theorem emerges_tuple {shapes : List Shape} {items : List Value} {i : Nat}
    (declared : shapes[i]? = some shape) (found : items[i]? = some part)
    (fixed : (Shape.tuple shapes).rebuild (.array items) = some (.array items))
    (spares : policy.SparesLists path (.array items) (.index i :: route))
    (rebuilt : (Shape.tuple shapes).rebuild (policy.recordIn path (.array items)) = some w) :
    shape.rebuild part = some part ∧ ∃ result, w.step? (.index i) = some result ∧
      Emerges policy (path.index i) shape route part result := by
  rw [recordIn] at rebuilt
  obtain ⟨_, equal, before⟩ := Shape.exists_of_rebuild_tuple fixed
  obtain rfl := Value.array.inj equal
  obtain ⟨results, rfl, after⟩ := Shape.exists_of_rebuild_tuple rebuilt
  exact emerges_of_position found spares (before i shape declared) (after i shape declared)

/-- An entry on the way to a map inside it is recorded and rebuilt by itself. -/
theorem emerges_entry {decimalKeys : Bool} {outer : Fields}
    (found : Keyed.get? name outer = some part)
    (fixed : (Shape.map decimalKeys shape).rebuild (.object outer) = some (.object outer))
    (spares : policy.SparesLists path (.object outer) (.key name :: route))
    (rebuilt : (Shape.map decimalKeys shape).rebuild (policy.recordIn path (.object outer)) =
      some w) : shape.rebuild part = some part ∧ ∃ result, w.step? (.key name) = some result ∧
        Emerges policy (path.field name) shape route part result := by
  rw [recordIn_fields] at rebuilt
  obtain ⟨_, equal, -, before⟩ := Shape.exists_of_rebuild_map fixed
  obtain rfl := Value.object.inj equal
  obtain ⟨results, rfl, -, after⟩ := Shape.exists_of_rebuild_map rebuilt
  obtain ⟨recorded, held, emerges⟩ := exists_recorded_part spares rfl found
  have before := before name
  have after := after name
  rw [found, Option.map_some, Option.map_some, Option.some.injEq] at before
  rw [held, Option.map_some] at after
  obtain ⟨result, stands, equal⟩ := Option.map_eq_some_iff.1 after.symm
  exact ⟨before, result, stands, emerges before equal.symm⟩

/-- A field on the way to a map is recorded and rebuilt by itself, if it is read at all. -/
theorem emerges_field {rule : RecordRule} {fields : List (FieldRule × Shape)}
    {field : FieldRule × Shape} {given : Fields} (distinct : (Shape.names fields).Nodup)
    (member : field ∈ fields) (found : Keyed.get? field.1.name given = some part)
    (written : ∀ pinned, field.1.pinned = some pinned → field.1.keeps pinned = true)
    (fixed : (Shape.record rule fields).rebuild (.object given) = some (.object given))
    (spares : policy.SparesLists path (.object given) (.field field.1.name :: route))
    (rebuilt : (Shape.record rule fields).rebuild (policy.recordIn path (.object given)) =
      some w) :
    ∃ result, (field.1.keeps result = true → w.step? (.field field.1.name) = some result) ∧
      (result = part ∨ (field.2.rebuild part = some part ∧
        Emerges policy (path.field field.1.name) field.2 route part result)) := by
  rw [recordIn_fields] at rebuilt
  obtain ⟨same, first, equal, before, stood, missed⟩ :=
    Shape.exists_of_rebuild_record distinct fixed member
  obtain rfl := Value.object.inj equal
  obtain ⟨results, result, rfl, after, stands, -⟩ :=
    Shape.exists_of_rebuild_record distinct rebuilt member
  refine ⟨result, stands, ?_⟩
  cases pinned : field.1.pinned with
  | some always =>
    -- The field is never read, so it is the same whatever was recorded.
    simp only [Shape.declaredValue, pinned, Option.some.injEq] at before after
    rw [← before] at stood
    rw [← after]
    exact .inl (Option.some.inj ((stood (written always pinned)).symm.trans found))
  | none =>
    obtain ⟨recorded, held, emerges⟩ := exists_recorded_part spares rfl found
    simp only [Shape.declaredValue, pinned, found, held] at before after
    -- What is found is what was rebuilt, since a field that is left out would not be found.
    have settled : first = part := by
      cases keeps : field.1.keeps first with
      | true => exact Option.some.inj ((stood keeps).symm.trans found)
      | false => simp [missed keeps pinned] at found
    rw [settled] at before
    exact .inr ⟨before, emerges before after⟩

end Steps

/--
A map that no recorded list contains holds its entries through recording and rebuilding.

The induction follows the route. Each part on the way is rebuilt from what was recorded of it, or
it is what it was before; and then nothing changes further on.
-/
theorem holdsEntries_of_recorded (map : MapAt shape v route inner entries)
    (formed : v.WellFormed) (once : shape.everywhere Shape.declaresOnce = true)
    (fixed : shape.rebuild v = some v) (spares : policy.SparesLists path v route)
    (rebuilt : shape.rebuild (policy.recordIn path v) = some w) :
    ∃ kept, w.at? route = some (.object kept) ∧ HoldsEntries entries kept := by
  have unchanged : ∀ entries, HoldsEntries entries entries :=
    fun _ => ⟨rfl, fun _ _ held _ _ => held⟩
  induction map generalizing path w with
  | here =>
    obtain ⟨kept, rfl, holds⟩ := holdsEntries_of_map formed fixed rebuilt
    exact ⟨kept, rfl, holds⟩
  | optional inside ih =>
    -- The map is not null, nor does recording make it so.
    have filled := (Bool.and_eq_true_iff.1 (Shape.isSolid_of_at?_object inside.at?)).1
    simp only [Bool.not_eq_true'] at filled
    rw [Shape.rebuild, filled, if_neg Bool.false_ne_true] at fixed
    rw [Shape.rebuild, isNull_recordIn, filled, if_neg Bool.false_ne_true] at rebuilt
    exact ih formed (Shape.everywhere_optional.1 once).2 fixed spares rebuilt
  | @item shape inner v items i route entries found inside ih =>
    obtain ⟨before, result, stands, emerges⟩ := emerges_item found fixed spares rebuilt
    rw [Value.at?, stands, Option.bind_some]
    cases emerges with
    | same => exact ⟨_, inside.at?, unchanged _⟩
    | recorded spares after =>
      have fits := Value.wellFormed_array.1 formed v (List.mem_of_getElem? found)
      exact ih fits (Shape.everywhere_list.1 once).2 before spares after
  | @tuple shapes shape inner v items i route entries declared found inside ih =>
    obtain ⟨before, result, stands, emerges⟩ := emerges_tuple declared found fixed spares rebuilt
    rw [Value.at?, stands, Option.bind_some]
    cases emerges with
    | same => exact ⟨_, inside.at?, unchanged _⟩
    | recorded spares after =>
      have fits := Value.wellFormed_array.1 formed v (List.mem_of_getElem? found)
      exact ih fits ((Shape.everywhere_tuple.1 once).2 _ (List.mem_of_getElem? declared)) before
        spares after
  | entry found inside ih =>
    obtain ⟨before, result, stands, emerges⟩ := emerges_entry found fixed spares rebuilt
    rw [Value.at?, stands, Option.bind_some]
    cases emerges with
    | same => exact ⟨_, inside.at?, unchanged _⟩
    | recorded spares after =>
      exact ih (formed.of_get? found) (Shape.everywhere_map.1 once).2 before spares after
  | @field rule fields field inner v given route entries member found written inside ih =>
    have distinct := of_decide_eq_true (Shape.everywhere_record.1 once).1
    obtain ⟨result, stands, emerges⟩ :=
      emerges_field distinct member found written fixed spares rebuilt
    obtain ⟨kept, leads, holds⟩ : ∃ kept, result.at? route = some (.object kept) ∧
        HoldsEntries entries kept := by
      rcases emerges with rfl | ⟨before, same | ⟨spares, after⟩⟩
      · exact ⟨_, inside.at?, unchanged _⟩
      · exact ⟨_, inside.at?, unchanged _⟩
      · exact ih (formed.of_get? found) ((Shape.everywhere_record.1 once).2 field member) before
          spares after
    -- What holds the map is neither null nor empty, so the field is not left out.
    have keeps := field.1.keeps_of_isSolid (Shape.isSolid_of_at?_object leads)
    exact ⟨kept, by rw [Value.at?, stands keeps, Option.bind_some, leads], holds⟩

/-- A route outside the lists leads into no list that recording keeps. -/
theorem sparesLists_of_plain (plain : ∀ segment ∈ route, segment.Plain) :
    policy.SparesLists path v route := by
  intro before fields list _ _ isList covers
  -- The list is the name of a step of the route.
  have step : Segment.field list ∈ route.map Segment.bare :=
    covers.subset (by simp [Path.field, Segment.bare])
  obtain ⟨segment, member, same⟩ := List.mem_map.1 step
  have named : segment.name? = some list := by
    cases segment <;> simp_all [Segment.bare, Segment.name?]
  exact absurd (plain segment member list named) (by simp [isBookkeeping_iff.2 isList])

/--
The entries of a map are data, apart from those under the names of the bookkeeping lists.

Recording leaves the keys of a map as they were, and every value inside which no struct keeps both
lists; but if the map has sequences under both names, these two are written over. A map that has
neither name passes the check exactly as it does with its keys renamed. A map that has one is taken
for a struct: it has to be lawful as well, and what stands under the two names is not looked into.
What stands in a list is left alone by the check, and by recording unless the list is recorded.
-/
theorem map_entries_are_data_but_lists {α : Type} {codec : Codec α} {shape : Shape}
    (follows : codec.Follows shape) (once : shape.everywhere Shape.declaresOnce = true) {x : α}
    {v : Value} (restores : codec.Restores x v) {route : Path} {inner : Shape} {entries : Fields}
    (map : MapAt shape v route inner entries) :
    (initial.SparesLists Path.root v route → ∀ filled w,
      initial.recordAbsences codec x = .ok filled → codec.encode filled = .ok w →
        ∃ kept, w.at? route = some (.object kept) ∧ HoldsEntries entries kept) ∧
    ∀ rename y version, Renames rename entries →
      codec.encode y = .ok (v.modifyAt route (Value.renameKeys rename)) →
      ((¬ (∀ segment ∈ route, segment.Plain) ∨ ∀ entry ∈ entries, isBookkeeping entry.1 = false) →
        (initial.check version codec x = .ok () ↔ initial.check version codec y = .ok ())) ∧
      ((∀ segment ∈ route, segment.Plain) →
        (initial.check version codec x = .ok () ∧
            (∀ entry ∈ entries, isBookkeeping entry.1 = true → Passes entry.2) ↔
          initial.check version codec y = .ok () ∧ Lawful entries)) := by
  refine ⟨fun spares filled w recorded written => ?_, fun rename y version renames written => ?_⟩
  · obtain ⟨before, encoded, rebuilt⟩ := recordAbsences_eq_ok_iff.1 recorded
    obtain rfl := Except.ok.inj (restores.written.symm.trans encoded)
    refine holdsEntries_of_recorded map restores.wellFormed once (restores.fixed follows) spares ?_
    rw [← follows]
    simp only [Codec.roundTrip, rebuilt, written, Except.toOption]
  · obtain ⟨outside, same⟩ := passes_renameKeys restores.wellFormed map.at? renames
    rw [check_initial_iff restores.written, check_initial_iff written]
    exact ⟨same, outside⟩

/-- Maps whose groups are given. -/
private def grouped (groups : Fields) : Value :=
  .object [("Counts", .object []), ("Grid", .array []), ("Groups", .object groups),
    ("Items", .array []), ("Maybe", .null), ("Nested", .object []), ("Rules", .object [])]

/-- The groups are a map of lists. -/
private theorem mapAt_grouped (groups : Fields) :
    MapAt Catalog.maps (grouped groups) [.field "Groups"] (.list .string) groups :=
  .field (List.mem_cons_of_mem _ (List.mem_cons_of_mem _ List.mem_cons_self)) rfl
    (fun _ always => nomatch always) .here

/-- A key that is not the name of a list, and stays what it is unless it was. -/
private def plainKey (k : String) : String :=
  if k = nullFields then "n" else k

/-- A group under the name of a list names a blank group, which counts as data and as a list. -/
theorem map_entries_are_data_but_lists_of_grouped :
    let groups : Fields := [("NullFields", .strings ["a"]), ("a", .array [])]
    ∃ filled kept, initial.recordAbsences (Catalog.maps.codec "Maps") (grouped groups) =
        .ok filled ∧ filled.at? [.field "Groups"] = some (.object kept) ∧
      Keyed.get? nullFields kept = some (.strings ["a"]) ∧
      initial.check .stable (Catalog.maps.codec "Maps")
        (grouped [("a", .array []), ("n", .strings ["a"])]) = .ok () := by
  intro groups
  have restores : (Catalog.maps.codec "Maps").Restores (grouped groups) (grouped groups) :=
    ⟨rfl, by decide, by decide⟩
  have plain : ∀ segment ∈ [Segment.field "Groups"], segment.Plain := by
    simp only [List.forall_mem_singleton, Segment.Plain, Segment.name?, Option.some.injEq,
      forall_eq']
    decide
  obtain ⟨filling, checking⟩ := map_entries_are_data_but_lists (Shape.follows_codec _ _)
    (by decide) restores (mapAt_grouped groups)
  have recorded : initial.recordAbsences (Catalog.maps.codec "Maps") (grouped groups) =
      .ok (initial.recordIn Path.root (grouped groups)) := by rfl
  obtain ⟨kept, leads, holds⟩ := filling (sparesLists_of_plain plain) _ _ recorded rfl
  have untracked : isTracked groups = false := by decide
  refine ⟨_, kept, recorded, leads, holds.values nullFields _ (by decide) (fun _ => untracked)
    fun _ inside => absurd inside not_structIn_strings, ?_⟩
  have renames : Renames plainKey groups := ⟨by decide, by decide⟩
  have exactly := (checking plainKey _ .stable renames rfl).2 plain
  refine (exactly.1 ⟨by rfl, fun entry member list fields inside => ?_⟩).1
  -- Only the list itself has the name of a list.
  obtain rfl : entry = ("NullFields", .strings ["a"]) := by
    rcases List.mem_cons.1 member with same | other
    · exact same
    · obtain rfl := List.mem_singleton.1 other
      simp [isBookkeeping, bookkeepingLists, nullFields, forceSendFields] at list
  exact absurd inside not_structIn_strings

/-- Not every map entry is data: one that looks like a list is refused, or written over. -/
theorem not_every_map_entry_is_data :
    (¬ ∀ (shape : Shape) (name : String) (x y : Value) (route : Path) (inner : Shape)
      (entries : Fields) (rename : String → String), (shape.codec name).Restores x x →
      MapAt shape x route inner entries → Renames rename entries →
      y = x.modifyAt route (Value.renameKeys rename) →
      (initial.check .stable (shape.codec name) x = .ok () ↔
        initial.check .stable (shape.codec name) y = .ok ())) ∧
    ¬ ∀ (shape : Shape) (name : String) (x filled : Value) (route : Path) (inner : Shape)
      (entries : Fields), (shape.codec name).Restores x x → MapAt shape x route inner entries →
      initial.recordAbsences (shape.codec name) x = .ok filled →
      ∃ kept, filled.at? route = some (.object kept) ∧ kept.map (·.1) = entries.map (·.1) ∧
        ∀ k part, Keyed.get? k entries = some part → (∀ fields, ¬ StructIn fields part) →
          Keyed.get? k kept = some part := by
  constructor
  · intro always
    -- The group names something that the struct it is taken for does not have.
    have same := always Catalog.maps "Maps" (grouped [("NullFields", .strings ["x"])])
      (grouped [("n", .strings ["x"])]) _ _ _ plainKey ⟨rfl, by decide, by decide⟩
      (mapAt_grouped _) ⟨by decide, by decide⟩ rfl
    have passed := same.2 (by rfl)
    have refused : initial.check .stable (Catalog.maps.codec "Maps")
        (grouped [("NullFields", .strings ["x"])]) =
          .error (.policy .stable ((Path.root.field "Groups").field nullFields)
            (.unknownName "x")) := by rfl
    rw [refused] at passed
    contradiction
  · intro always
    -- The group that has no items is entered in the group that has the name of a list.
    obtain ⟨kept, leads, -, values⟩ := always Catalog.maps "Maps"
      (grouped [("ForceSendFields", .strings []), ("NullFields", .strings []), ("a", .array [])])
      (grouped [("ForceSendFields", .strings ["a"]), ("NullFields", .strings []),
        ("a", .array [])]) _ _ _ ⟨rfl, by decide, by decide⟩ (mapAt_grouped _) (by rfl)
    obtain rfl := Value.object.inj (Option.some.inj leads)
    have stays := values forceSendFields (.strings []) (by decide) fun _ => not_structIn_strings
    exact absurd stays (by decide)

end Policy

end Triversion
