import Triversion.Proofs.Policy.Lawful

/-!
What renaming the entries of one object does to the policy check.

The object looks the same from outside, so everything around it passes as before. What changes is
what the object says itself: an entry that has the name of a bookkeeping list is read as one, and is
looked into only under another name.
-/

namespace Triversion

/-- The entries of an object under new keys, put in order. -/
def Value.renameKeys (rename : String → String) : Value → Value
  | .object entries => .object (Keyed.ofList (entries.map fun entry => (rename entry.1, entry.2)))
  | v => v

namespace Policy

section Exchange

variable {fields : Fields} {name : String} {v child : Value} {segment : Segment}
  {change : Value → Value}

/-- Exchanging one field for an alike one keeps the names and what is blank. -/
theorem blanks_modify (found : Keyed.get? name fields = some child)
    (alike : Alike child (change child)) :
    (fields.map fun entry => (entry.1, entry.2.isBlank)) =
      (Keyed.modify name change fields).map fun entry => (entry.1, entry.2.isBlank) := by
  induction fields with
  | nil => rfl
  | cons entry rest ih =>
    obtain ⟨k, v⟩ := entry
    by_cases same : k = name
    · obtain rfl : v = child := by simpa [Keyed.get?, same] using found
      simp [Keyed.modify, same, alike.blank]
    · have later : Keyed.get? name rest = some child := by simpa [Keyed.get?, same] using found
      simp [Keyed.modify, same, ih later]

/-- Exchanging one field for an alike one keeps what the lists name. -/
theorem listedNames_modify (found : Keyed.get? name fields = some child)
    (alike : Alike child (change child)) (list : String) :
    Value.listedNames fields list =
      Value.listedNames (Keyed.modify name change fields) list := by
  rw [Value.listedNames_eq, Value.listedNames_eq]
  by_cases same : name = list
  · rw [← same, Keyed.get?_modify_self, found]
    exact alike.texts
  · rw [Keyed.get?_modify_of_ne same]

/-- A struct stays lawful when one of its fields is exchanged for an alike one. -/
theorem lawful_modify_iff (found : Keyed.get? name fields = some child)
    (alike : Alike child (change child)) :
    Lawful fields ↔ Lawful (Keyed.modify name change fields) :=
  Lawful.congr (blanks_modify found alike) (listedNames_modify found alike)

/-- Exchanging one item for an alike one keeps the texts in a sequence. -/
theorem filterMap_string?_modify {items : List Value} {i : Nat} (found : items[i]? = some child)
    (alike : Alike child (change child)) :
    items.filterMap Value.string? = (items.modify i change).filterMap Value.string? := by
  induction items generalizing i with
  | nil => simp at found
  | cons first rest ih =>
    cases i with
    | zero =>
      obtain rfl : first = child := by simpa using found
      simp [List.filterMap_cons, alike.string]
    | succ i => simp [List.filterMap_cons, ih (by simpa using found)]

/-- A value in which one part is exchanged for an alike one is alike itself. -/
theorem Alike.modifyStep (alike : Alike child (change child))
    (found : v.step? segment = some child) : Alike v (v.modifyStep segment change) := by
  cases v with
  | array items =>
    cases segment with
    | index i =>
      refine ⟨?_, filterMap_string?_modify found alike, rfl⟩
      -- A sequence is blank if it has no items, and keeps its length.
      rw [Value.modifyStep, Value.isBlank, Value.isBlank, Bool.eq_iff_iff,
        List.isEmpty_iff_length_eq_zero, List.isEmpty_iff_length_eq_zero, List.length_modify]
    | _ => simp [Value.step?] at found
  | object fields =>
    rw [Value.step?_object] at found
    obtain ⟨name, named, held⟩ := Option.bind_eq_some_iff.1 found
    simp only [Value.modifyStep, named]
    refine ⟨?_, rfl, rfl⟩
    have blank : ∀ fields : Fields, (Value.object fields).isBlank = true ↔
        ∀ entry ∈ fields.map fun entry => (entry.1, entry.2.isBlank), entry.2 = true := by
      intro fields
      rw [Value.isBlank_object_iff, List.forall_mem_map]
    rw [Bool.eq_iff_iff, blank, blank, ← blanks_modify held alike]
  | _ => cases segment <;> simp [Value.step?] at found

/-- A value in which the part at the end of a route is exchanged for an alike one is alike. -/
theorem Alike.modifyAt {route : Path} {part : Value} (alike : Alike part (change part))
    (found : v.at? route = some part) : Alike v (v.modifyAt route change) := by
  induction route generalizing v with
  | nil =>
    obtain rfl := Option.some.inj found
    exact alike
  | cons segment rest ih =>
    obtain ⟨next, first, later⟩ := Option.bind_eq_some_iff.1 found
    exact Alike.modifyStep (ih later) first

/-- A value is lawful by itself if it is so with a part exchanged for an alike one. -/
theorem lawful_modifyStep_iff (alike : Alike child (change child))
    (found : v.step? segment = some child) :
    (∀ fields, v = .object fields → Lawful fields) ↔
      ∀ fields, v.modifyStep segment change = .object fields → Lawful fields := by
  cases v with
  | object fields =>
    rw [Value.step?_object] at found
    obtain ⟨name, named, held⟩ := Option.bind_eq_some_iff.1 found
    simp only [Value.modifyStep, named, Value.object.injEq, forall_eq']
    exact lawful_modify_iff held alike
  | array items => cases segment <;> simp [Value.modifyStep]
  | _ => cases segment <;> simp [Value.step?] at found

/-- What is around the part at a step passes: the value by itself, and its parts at other steps. -/
structure PassesAround (segment : Segment) (v : Value) : Prop where
  lawful : ∀ fields, v = .object fields → Lawful fields
  others : ∀ other part, segment.bare ≠ other.bare → other.Plain → v.step? other = some part →
    Passes part

/-- Outside the lists a value passes if a part does, and what is around it. -/
theorem passes_iff_around (formed : v.WellFormed) (found : v.step? segment = some child)
    (plain : segment.Plain) : Passes v ↔ PassesAround segment v ∧ Passes child := by
  rw [passes_iff formed]
  constructor
  · rintro ⟨lawful, each⟩
    exact ⟨⟨lawful, fun other part _ => each other part⟩, each segment child plain found⟩
  · rintro ⟨⟨lawful, others⟩, here⟩
    refine ⟨lawful, fun other part plainOther held => ?_⟩
    -- A step of the same name leads to the part, as a field or as a key.
    by_cases same : segment.bare = other.bare
    · rw [← Value.step?_of_bare_eq same, found] at held
      exact Option.some.inj held ▸ here
    · exact others other part same plainOther held

/-- What is in a list is not looked into, so only what is around it has to pass. -/
theorem passes_iff_around_list (formed : v.WellFormed) (list : ¬ segment.Plain) :
    Passes v ↔ PassesAround segment v := by
  rw [passes_iff formed]
  constructor
  · exact fun ⟨lawful, each⟩ => ⟨lawful, fun other part _ => each other part⟩
  · rintro ⟨lawful, others⟩
    refine ⟨lawful, fun other part plain => others other part (fun same => ?_) plain⟩
    exact list fun name named => plain name ((Value.name?_of_bare_eq same).symm.trans named)

/-- Exchanging a part for an alike one leaves what is around it as it was. -/
theorem passesAround_modifyStep (alike : Alike child (change child))
    (found : v.step? segment = some child) :
    PassesAround segment (v.modifyStep segment change) ↔ PassesAround segment v := by
  have others : ∀ other, segment.bare ≠ other.bare →
      (v.modifyStep segment change).step? other = v.step? other :=
    fun other differs => Value.step?_modifyStep_of_ne differs
  have lawful := lawful_modifyStep_iff alike found
  constructor
  · exact fun around => ⟨lawful.2 around.lawful, fun other part differs plain held =>
      around.others other part differs plain ((others other differs).trans held)⟩
  · exact fun around => ⟨lawful.1 around.lawful, fun other part differs plain held =>
      around.others other part differs plain ((others other differs).symm.trans held)⟩

variable {route : Path} {part : Value}

/-- A route outside the lists leads to a part that is judged for itself. -/
theorem exists_around (formed : v.WellFormed)
    (keeps : ∀ part, part.WellFormed → (change part).WellFormed)
    (alike : Alike part (change part)) (found : v.at? route = some part)
    (plain : ∀ segment ∈ route, segment.Plain) :
    ∃ around : Prop, (Passes v ↔ around ∧ Passes part) ∧
      (Passes (v.modifyAt route change) ↔ around ∧ Passes (change part)) := by
  -- What is around the part at the end is what is around each part on the way.
  induction route generalizing v with
  | nil =>
    obtain rfl := Option.some.inj found
    exact ⟨True, by simp, by simp [Value.modifyAt]⟩
  | cons segment rest ih =>
    obtain ⟨next, first, later⟩ := Option.bind_eq_some_iff.1 found
    obtain ⟨here, onward⟩ := List.forall_mem_cons.1 plain
    obtain ⟨inner, before, after⟩ := ih (formed.step? first) later onward
    have inside := alike.modifyAt later
    have changed : (v.modifyStep segment (Value.modifyAt rest change)).step? segment =
        some (next.modifyAt rest change) := by
      rw [Value.step?_modifyStep_self rfl, first, Option.map_some]
    refine ⟨PassesAround segment v ∧ inner, ?_, ?_⟩
    · rw [passes_iff_around formed first here, before, and_assoc]
    · have formedNew := formed.modifyStep segment fun part fits => fits.modifyAt rest keeps
      rw [Value.modifyAt, passes_iff_around formedNew changed here,
        passesAround_modifyStep inside first, after, and_assoc]

/-- What a route into a list leads to may be exchanged for anything alike. -/
theorem passes_modifyAt_of_list (formed : v.WellFormed)
    (keeps : ∀ part, part.WellFormed → (change part).WellFormed)
    (alike : Alike part (change part)) (found : v.at? route = some part)
    (list : ¬ ∀ segment ∈ route, segment.Plain) :
    Passes v ↔ Passes (v.modifyAt route change) := by
  induction route generalizing v with
  | nil => simp at list
  | cons segment rest ih =>
    obtain ⟨next, first, later⟩ := Option.bind_eq_some_iff.1 found
    have around := passesAround_modifyStep (alike.modifyAt later) first
    have formedNew := formed.modifyStep segment fun part fits => fits.modifyAt rest keeps
    rw [Value.modifyAt]
    by_cases plain : segment.Plain
    · -- The list comes later, behind a part that is judged for itself.
      have inside := ih (formed.step? first) later fun each =>
        list (List.forall_mem_cons.2 ⟨plain, each⟩)
      have changed : (v.modifyStep segment (Value.modifyAt rest change)).step? segment =
          some (next.modifyAt rest change) := by
        rw [Value.step?_modifyStep_self rfl, first, Option.map_some]
      rw [passes_iff_around formed first plain, passes_iff_around formedNew changed plain, around,
        inside]
    · rw [passes_iff_around_list formed plain, passes_iff_around_list formedNew plain, around]

end Exchange

/-- Keys of entries are renamed one-to-one to names that are no bookkeeping lists. -/
structure Renames (rename : String → String) (entries : Fields) : Prop where
  injective : ∀ one ∈ entries, ∀ another ∈ entries, rename one.1 = rename another.1 →
    one.1 = another.1
  ordinary : ∀ entry ∈ entries, isBookkeeping (rename entry.1) = false

section Renaming

variable {rename : String → String} {entries : Fields} {v : Value}

/-- Under new keys a well-formed value is well formed. -/
theorem wellFormed_renameKeys (rename : String → String) (formed : v.WellFormed) :
    (v.renameKeys rename).WellFormed := by
  cases v with
  | object entries =>
    refine Value.wellFormed_object.2 ⟨Keyed.ascending_ofList _, fun entry member => ?_⟩
    obtain ⟨old, before, rfl⟩ := List.mem_map.1 (Keyed.mem_of_mem_ofList member)
    exact (Value.wellFormed_object.1 formed).2 old before
  | _ => exact formed

/-- Renamed entries are the entries under their new keys. -/
theorem Renames.mem_iff (renames : Renames rename entries) (distinct : (entries.map (·.1)).Nodup)
    {entry : String × Value} :
    entry ∈ Keyed.ofList (entries.map fun entry => (rename entry.1, entry.2)) ↔
      ∃ old ∈ entries, (rename old.1, old.2) = entry := by
  rw [Keyed.mem_ofList, List.mem_map]
  -- Different keys are renamed to different names.
  rw [List.map_map, List.nodup_map_iff_inj_on]
  · intro one member another other same
    have key := renames.injective one member another other same
    exact List.inj_on_of_nodup_map distinct member other key
  · exact List.Nodup.of_map _ distinct

/-- From outside a map looks the same under new keys. -/
theorem Renames.alike (renames : Renames rename entries) (distinct : (entries.map (·.1)).Nodup) :
    Alike (.object entries) (Value.renameKeys rename (.object entries)) := by
  refine ⟨?_, rfl, rfl⟩
  rw [Value.renameKeys, Bool.eq_iff_iff, Value.isBlank_object_iff, Value.isBlank_object_iff]
  simp only [renames.mem_iff distinct, forall_exists_index, and_imp]
  exact ⟨fun blank entry old member same => same ▸ blank old member,
    fun blank old member => blank (rename old.1, old.2) old member rfl⟩

/-- Under new keys all entries of a map are looked into, and none is read as a list. -/
theorem Renames.passes_iff (renames : Renames rename entries)
    (distinct : (entries.map (·.1)).Nodup) :
    Passes (Value.renameKeys rename (.object entries)) ↔ ∀ entry ∈ entries, Passes entry.2 := by
  have sorted := Keyed.ascending_ofList (entries.map fun entry => (rename entry.1, entry.2))
  rw [Value.renameKeys, passes_object_iff sorted.nodup]
  constructor
  · rintro ⟨-, each⟩ entry member
    exact each _ _ (renames.ordinary entry member)
      (Keyed.get?_of_mem sorted.nodup ((renames.mem_iff distinct).2 ⟨entry, member, rfl⟩))
  · intro each
    refine ⟨lawful_of_unlisted fun entry member => ?_, fun name part _ held => ?_⟩
    · obtain ⟨old, before, rfl⟩ := (renames.mem_iff distinct).1 member
      exact renames.ordinary old before
    · obtain ⟨old, before, same⟩ := (renames.mem_iff distinct).1 (Keyed.mem_of_get? held)
      exact (Prod.mk.inj same).2 ▸ each old before

/-- A map passes if it is lawful and its entries pass, save for those under names of lists. -/
theorem Renames.passes_iff_lawful (renames : Renames rename entries)
    (distinct : (entries.map (·.1)).Nodup) :
    (Passes (.object entries) ∧
        ∀ entry ∈ entries, isBookkeeping entry.1 = true → Passes entry.2) ↔
      Passes (Value.renameKeys rename (.object entries)) ∧ Lawful entries := by
  rw [renames.passes_iff distinct, passes_object_iff distinct]
  constructor
  · rintro ⟨⟨lawful, each⟩, reserved⟩
    refine ⟨fun entry member => ?_, lawful⟩
    cases list : isBookkeeping entry.1 with
    | true =>
      -- The check passes over what stands here until the key is renamed.
      exact reserved entry member list
    | false => exact each _ _ list (Keyed.get?_of_mem distinct member)
  · rintro ⟨each, lawful⟩
    exact ⟨⟨lawful, fun name part _ held => each _ (Keyed.mem_of_get? held)⟩,
      fun entry member _ => each entry member⟩

variable {route : Path}

/--
What renaming the keys of a map changes for the check.

Outside the lists of the value around it, a map is read as a struct: it has to be lawful itself, and
what stands under the name of a list is not looked into. Under other keys neither is so. A map that
no key of which is the name of a list, or that stands in a list itself, passes as it does renamed.
-/
theorem passes_renameKeys (formed : v.WellFormed) (found : v.at? route = some (.object entries))
    (renames : Renames rename entries) :
    ((∀ segment ∈ route, segment.Plain) →
      (Passes v ∧ (∀ entry ∈ entries, isBookkeeping entry.1 = true → Passes entry.2) ↔
        Passes (v.modifyAt route (Value.renameKeys rename)) ∧ Lawful entries)) ∧
    ((¬ (∀ segment ∈ route, segment.Plain) ∨ ∀ entry ∈ entries, isBookkeeping entry.1 = false) →
      (Passes v ↔ Passes (v.modifyAt route (Value.renameKeys rename)))) := by
  have keeps := fun (part : Value) => wellFormed_renameKeys (v := part) rename
  have distinct := (formed.at? found).distinct
  have alike := renames.alike distinct
  have outside : (∀ segment ∈ route, segment.Plain) →
      (Passes v ∧ (∀ entry ∈ entries, isBookkeeping entry.1 = true → Passes entry.2) ↔
        Passes (v.modifyAt route (Value.renameKeys rename)) ∧ Lawful entries) := by
    intro plain
    obtain ⟨around, before, after⟩ := exists_around formed keeps alike found plain
    rw [before, after, and_assoc, and_assoc, renames.passes_iff_lawful distinct]
  refine ⟨outside, fun reason => ?_⟩
  by_cases plain : ∀ segment ∈ route, segment.Plain
  · -- No entry is reserved, so the map is lawful and nothing in it is passed over.
    have unlisted := reason.resolve_left (not_not_intro plain)
    have both := outside plain
    rwa [and_iff_left (lawful_of_unlisted unlisted), and_iff_left] at both
    exact fun entry member list => by simp [unlisted entry member] at list
  · exact passes_modifyAt_of_list formed keeps alike found plain

end Renaming

end Policy

end Triversion
