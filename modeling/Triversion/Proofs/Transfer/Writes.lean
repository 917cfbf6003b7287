import Triversion.Proofs.Transfer.Merge
import Triversion.Proofs.Value.WellFormed
import Triversion.Proofs.Value.At

/-!
Where a merge writes.

Every write of a merge leads to a part of the merged value, and no two writes stand on one route.
-/

namespace Triversion

namespace Exclusions

/-- Fields are stripped one by one, after the excluded ones are gone. -/
theorem stripFields_eq (exclusions : Exclusions) (path : Path) (fields : Fields) :
    exclusions.stripFields path fields =
      (fields.filter fun entry => !exclusions.excludes entry.1 (path.field entry.1)).map
        fun entry => (entry.1, exclusions.strip (path.field entry.1) entry.2) := by
  -- Whether a field is excluded does not depend on the fields before it.
  induction fields with
  | nil => rfl
  | cons entry rest ih =>
    obtain ⟨name, v⟩ := entry
    rw [stripFields, ih]
    cases excluded : exclusions.excludes name (path.field name) <;> simp [excluded]

/-- Items are stripped one by one. -/
theorem stripItems_eq (exclusions : Exclusions) (path : Path) (i : Nat) (items : List Value) :
    exclusions.stripItems path i items =
      (items.zipIdx i).map fun item => exclusions.strip (path.index item.2) item.1 := by
  -- The position counts up from where the first item stands.
  induction items generalizing i with
  | nil => rfl
  | cons v rest ih => rw [stripItems, ih, List.zipIdx_cons, List.map_cons]

/-- Taking excluded fields out keeps a value well formed. -/
theorem wellFormed_strip (exclusions : Exclusions) (path : Path) {v : Value}
    (formed : v.WellFormed) : (exclusions.strip path v).WellFormed := by
  induction v using Value.inductionOn generalizing path with
  | null => trivial
  | bool b => trivial
  | number n => trivial
  | string s => trivial
  | array items ih =>
    rw [strip, stripItems_eq, Value.wellFormed_array]
    intro item member
    obtain ⟨⟨v, i⟩, listed, rfl⟩ := List.mem_map.1 member
    have inside := List.mem_of_getElem? (List.mem_zipIdx_iff_getElem?.1 listed)
    exact ih v inside _ (Value.wellFormed_array.1 formed v inside)
  | object fields ih =>
    obtain ⟨sorted, inside⟩ := Value.wellFormed_object.1 formed
    rw [strip, stripFields_eq, Value.wellFormed_object]
    -- The fields that are left stand in the order they stood in before.
    refine ⟨Keyed.ascending_map (fun name v => exclusions.strip (path.field name) v)
      (sorted.sublist List.filter_sublist), ?_⟩
    intro entry member
    obtain ⟨field, listed, rfl⟩ := List.mem_map.1 member
    have listed := (List.mem_filter.1 listed).1
    exact ih field listed _ (inside field listed)

end Exclusions

/-- Entries that fill an empty map make a well-formed map. -/
theorem wellFormed_wholeEntries (exclusions : Exclusions) (path : Path) {given : Fields}
    (formed : (Value.object given).WellFormed) :
    (Value.object (wholeEntries exclusions path given)).WellFormed := by
  -- The keys are those of the source, in the same order.
  obtain ⟨sorted, inside⟩ := Value.wellFormed_object.1 formed
  refine Value.wellFormed_object.2
    ⟨Keyed.ascending_map (fun k v => exclusions.strip (path.key k) v) sorted, ?_⟩
  intro entry member
  obtain ⟨field, listed, rfl⟩ := List.mem_map.1 member
  exact exclusions.wellFormed_strip _ (inside field listed)

/-- A merged part whose writes lead to parts of it, on routes of their own. -/
structure Merged.Sound (path : Path) (merged : Merged Value) : Prop where
  placed : ∀ write ∈ merged.journal.writes, ∃ rest part,
    write.path = path ++ rest ∧ merged.result.at? rest = some part
  apart : merged.journal.writes.Pairwise fun first second => first.path.Apart second.path
  wellFormed : merged.result.WellFormed
  restores : ∀ write ∈ merged.journal.writes, ∀ v, write.reversal = .restore v → v.WellFormed

namespace Merged.Sound

variable {path : Path}

/-- Where nothing is written there is nothing to place. -/
theorem of_silent {merged : Merged Value} (silent : merged.journal.writes = [])
    (formed : merged.result.WellFormed) : merged.Sound path := by
  refine ⟨?_, ?_, formed, ?_⟩ <;> simp [silent]

/-- A part that is written as a whole is the end of its own route. -/
theorem of_whole {merged : Merged Value} {reversal : Reversal}
    (whole : merged.journal.writes = [⟨path, reversal⟩]) (formed : merged.result.WellFormed)
    (restores : ∀ v, reversal = .restore v → v.WellFormed) : merged.Sound path := by
  refine ⟨?_, ?_, formed, ?_⟩
  · -- The route of the write ends where the part begins.
    intro write member
    rw [whole, List.mem_singleton] at member
    exact ⟨[], merged.result, by rw [member, List.append_nil], rfl⟩
  · rw [whole]
    exact List.pairwise_singleton _ _
  · intro write member v same
    rw [whole, List.mem_singleton] at member
    exact restores v (by rw [← same, member])

/-- Parts behind different steps can be put together. -/
theorem of_parts {whole : Value} {journal : Journal} (parts : List (Segment × Merged Value))
    (listed : journal.writes = parts.flatMap fun part => part.2.journal.writes)
    (distinct : parts.Pairwise fun first second => first.1.bare ≠ second.1.bare)
    (sound : ∀ part ∈ parts, part.2.Sound (path ++ [part.1]))
    (found : ∀ part ∈ parts, whole.step? part.1 = some part.2.result)
    (formed : whole.WellFormed) : Merged.Sound path ⟨whole, journal⟩ := by
  refine ⟨?_, ?_, formed, ?_⟩
  · -- The step that leads to the part comes before the route inside it.
    intro write member
    obtain ⟨part, inside, member⟩ := List.mem_flatMap.1 (listed ▸ member)
    obtain ⟨rest, v, route, leads⟩ := (sound part inside).placed write member
    refine ⟨part.1 :: rest, v, by simpa using route, ?_⟩
    simp only [Value.at?, found part inside, Option.bind_some, leads]
  · rw [listed, List.pairwise_flatMap]
    refine ⟨fun part inside => (sound part inside).apart, ?_⟩
    -- Writes of different parts already differ in the step that leads to their part.
    refine distinct.imp_of_mem ?_
    intro first second insideFirst insideSecond different a memberA b memberB
    obtain ⟨restA, _, routeA, _⟩ := (sound first insideFirst).placed a memberA
    obtain ⟨restB, _, routeB, _⟩ := (sound second insideSecond).placed b memberB
    rw [routeA, routeB, List.append_assoc, List.append_assoc]
    exact Path.apart_of_bare_ne path different restA restB
  · intro write member v same
    obtain ⟨part, inside, member⟩ := List.mem_flatMap.1 (listed ▸ member)
    exact (sound part inside).restores write member v same

/-- Every write of a whole leads to a part of it. -/
theorem found {merged : Merged Value} (sound : merged.Sound Path.root) :
    ∀ write ∈ merged.journal.writes, ∃ v, merged.result.at? write.path = some v := by
  intro write member
  obtain ⟨rest, v, route, leads⟩ := sound.placed write member
  exact ⟨v, by rw [route]; exact leads⟩

end Merged.Sound

/-- Names that a merge keeps of a list are those of the source. -/
theorem keptNames_subset (known : List String) (names : List Value) :
    keptNames known names ⊆ names :=
  List.filter_sublist.subset

/-- Merging one bookkeeping list keeps a struct well formed. -/
theorem wellFormed_mergeList (known : List String) {fields given : Fields} (list : String)
    (there : (Value.object fields).WellFormed) (formed : (Value.object given).WellFormed) :
    (Value.object (mergeList known given fields list)).WellFormed := by
  unfold mergeList
  split
  · split
    · next names found =>
      -- The names that are set were all in the list of the source.
      have texts : (Value.array (keptNames known names)).WellFormed := by
        refine Value.wellFormed_array.2 fun item member => ?_
        have listed := keptNames_subset known names member
        exact Value.wellFormed_array.1 (formed.of_get? found) item listed
      exact there.setStep (.field list) texts
    · exact there
  · exact there

/-- Merging both bookkeeping lists keeps a struct well formed. -/
theorem wellFormed_mergeLists (known : List String) {fields given : Fields}
    (there : (Value.object fields).WellFormed) (formed : (Value.object given).WellFormed) :
    (Value.object (mergeLists known given fields)).WellFormed :=
  wellFormed_mergeList known _ (wellFormed_mergeList known _ there formed) formed

section Sound

variable {rules : MergeRules} {path : Path}

/-- What a merge does with one source field is sound. -/
theorem sound_mergeField {there : Option Value} {name : String} {given : Value}
    (formed : given.WellFormed)
    (sound : ∀ v, there = some v →
      (mergeInto rules v (path.field name) given).Sound (path.field name)) :
    (mergeField rules path there name given).Sound (path.field name) := by
  cases there with
  | some v => exact sound v rfl
  | none =>
    -- A new field is taken as it is, and taken back by removing it.
    exact Merged.Sound.of_whole rfl (rules.exclusions.wellFormed_strip _ formed) (by simp)

/-- The merge of a struct is sound if the merges of its fields are. -/
theorem sound_mergeObjects {fields given : Fields} (there : (Value.object fields).WellFormed)
    (formed : (Value.object given).WellFormed)
    (sound : ∀ entry ∈ given, ∀ v path, v.WellFormed →
      (mergeInto rules v path entry.2).Sound path) :
    ((mergeObjects rules path fields given).map Value.object).Sound path := by
  have fieldSound : ∀ entry ∈ given, (mergeField rules path (Keyed.get? entry.1 fields) entry.1
      entry.2).Sound (path.field entry.1) := by
    intro entry member
    refine sound_mergeField ((Value.wellFormed_object.1 formed).2 entry member) fun v found => ?_
    exact sound entry member v _ (there.of_get? found)
  have taken : ∀ entry ∈ takenFields rules path given,
      entry ∈ given ∧ rules.skips path entry.1 = false := fun _ => mem_takenFields.1
  refine Merged.Sound.of_parts ((takenFields rules path given).map fun entry =>
    (.field entry.1, mergeField rules path (Keyed.get? entry.1 fields) entry.1 entry.2))
    ?_ ?_ ?_ ?_ ?_
  · simp only [journal_mergeObjects rules path formed.distinct, Journal.writes_all,
      List.flatMap_map]
  · rw [List.pairwise_map]
    refine (List.pairwise_map.1 (takenFields_nodup rules path formed.distinct)).imp ?_
    exact fun different same => different (Segment.field.inj same)
  · intro part member
    obtain ⟨entry, listed, rfl⟩ := List.mem_map.1 member
    exact fieldSound entry (taken entry listed).1
  · intro part member
    obtain ⟨entry, listed, rfl⟩ := List.mem_map.1 member
    have ordinary := (Bool.or_eq_false_iff.1 (taken entry listed).2).1
    have found := Keyed.get?_of_mem (takenFields_nodup rules path formed.distinct) listed
    change Keyed.get? entry.1 (mergeObjects rules path fields given).result = _
    rw [get?_mergeObjects rules path formed.distinct fields ordinary, found]
    rfl
  · -- A field of the merged struct is merged itself, or as the destination had it.
    refine wellFormed_mergeLists _ (Value.wellFormed_of_get? ?_ ?_) formed
    · exact ascending_mergeFields rules path given (Value.wellFormed_object.1 there).1
    · intro name v found
      rw [get?_mergeFields rules path formed.distinct] at found
      cases held : Keyed.get? name (takenFields rules path given) with
      | none =>
        rw [held, Option.map_none, Option.none_or] at found
        exact there.of_get? found
      | some w =>
        rw [held, Option.map_some, Option.some_or] at found
        have listed := (taken (name, w) (Keyed.mem_of_get? held)).1
        exact Option.some.inj found ▸ (fieldSound (name, w) listed).wellFormed

/-- The merge of a map is sound if the merges of its entries are. -/
theorem sound_mergeEntries {shape : Value} {given : Fields}
    (formed : (Value.object given).WellFormed)
    (sound : ∀ entry ∈ given, (mergeInto rules shape (path.key entry.1) entry.2).Sound
      (path.key entry.1)) {journal : Journal}
    (writes : journal.writes = (mergeEntries rules shape path given).journal.writes) :
    Merged.Sound path ⟨.object (mergeEntries rules shape path given).result, journal⟩ := by
  -- The entries are parts of the map behind steps with keys of their own.
  obtain ⟨sorted, inside⟩ := Value.wellFormed_object.1 formed
  refine Merged.Sound.of_parts (given.map fun entry =>
    (.key entry.1, mergeInto rules shape (path.key entry.1) entry.2)) ?_ ?_ ?_ ?_ ?_
  · simp only [writes, mergeEntries_eq, Journal.writes_all, List.flatMap_map]
  · rw [List.pairwise_map]
    refine (List.pairwise_map.1 formed.distinct).imp ?_
    exact fun different same => different (Segment.field.inj same)
  · intro part member
    obtain ⟨entry, listed, rfl⟩ := List.mem_map.1 member
    exact sound entry listed
  · intro part member
    obtain ⟨entry, listed, rfl⟩ := List.mem_map.1 member
    change Keyed.get? entry.1 (mergeEntries rules shape path given).result = _
    rw [mergeEntries_eq, Keyed.get?_map fun k v => (mergeInto rules shape (path.key k) v).result,
      Keyed.get?_of_mem formed.distinct listed]
    rfl
  · rw [mergeEntries_eq, Value.wellFormed_object]
    refine ⟨Keyed.ascending_map
      (fun k v => (mergeInto rules shape (path.key k) v).result) sorted, ?_⟩
    intro entry member
    obtain ⟨field, listed, rfl⟩ := List.mem_map.1 member
    exact (sound field listed).wellFormed

/-- Items are told apart by their positions, not by what they are. -/
theorem pairwise_zipIdx {α : Type} (items : List α) :
    items.zipIdx.Pairwise fun first second => first.2 ≠ second.2 := by
  have positions : (items.zipIdx.map (·.2)).Nodup := by
    rw [List.zipIdx_map_snd]
    exact List.nodup_range'
  exact List.pairwise_map.1 positions

/-- The merge of a sequence is sound if the merges of its items are. -/
theorem sound_mergeItems {shape : Value} {given : List Value}
    (sound : ∀ i, ∀ item ∈ given,
      (mergeInto rules shape (path.index i) item).Sound (path.index i)) :
    ((mergeItems rules shape path 0 given).map Value.array).Sound path := by
  -- The items are parts of the sequence behind steps with positions of their own.
  have inside : ∀ item ∈ given.zipIdx, item.1 ∈ given := fun item listed =>
    List.mem_of_getElem? (List.mem_zipIdx_iff_getElem?.1 listed)
  refine Merged.Sound.of_parts (given.zipIdx.map fun item =>
    (.index item.2, mergeInto rules shape (path.index item.2) item.1)) ?_ ?_ ?_ ?_ ?_
  · simp only [mergeItems_eq, Journal.writes_all, List.flatMap_map]
  · rw [List.pairwise_map]
    refine (pairwise_zipIdx given).imp ?_
    exact fun different same => different (Segment.index.inj same)
  · intro part member
    obtain ⟨item, listed, rfl⟩ := List.mem_map.1 member
    exact sound item.2 item.1 (inside item listed)
  · intro part member
    obtain ⟨item, listed, rfl⟩ := List.mem_map.1 member
    change (mergeItems rules shape path 0 given).result[item.2]? = _
    rw [mergeItems_eq, List.getElem?_map, List.getElem?_zipIdx,
      List.mem_zipIdx_iff_getElem?.1 listed, Option.map_some, Option.map_some, Nat.zero_add]
  · rw [mergeItems_eq, Value.wellFormed_array]
    intro v member
    obtain ⟨item, listed, rfl⟩ := List.mem_map.1 member
    exact (sound item.2 item.1 (inside item listed)).wellFormed

/-- A value that is taken as it is is one write. -/
theorem sound_takeWhole {given : Value} (formed : given.WellFormed) :
    (takeWhole rules path given).Sound path := by
  refine Merged.Sound.of_whole rfl (rules.exclusions.wellFormed_strip path formed) ?_
  intro v same
  exact Reversal.restore.inj same ▸ trivial

/-- A value that has no place is no write. -/
theorem sound_rejectAt {there given : Value} (formed : there.WellFormed) :
    (rejectAt there path given).Sound path :=
  Merged.Sound.of_silent rfl formed.blank

/-- The merge of a scalar is at most one write. -/
theorem sound_mergeScalar {there given : Value} (formedThere : there.WellFormed)
    (formed : given.WellFormed) : (mergeScalar rules there path given).Sound path := by
  -- The scalar is taken by null, set where it fits, or rejected.
  unfold mergeScalar
  split
  · exact sound_takeWhole formed
  · split
    · refine Merged.Sound.of_whole rfl formed fun v same => ?_
      exact Reversal.restore.inj same ▸ formedThere.blank
    · exact sound_rejectAt formedThere

/-- Every merge of well-formed values is sound. -/
theorem sound_mergeInto (rules : MergeRules) {given : Value} (formed : given.WellFormed)
    {there : Value} (path : Path) (formedThere : there.WellFormed) :
    (mergeInto rules there path given).Sound path := by
  induction given using Value.inductionOn generalizing there path with
  | null =>
    -- Null clears what stands there, which is no write if nothing does.
    rw [mergeInto, clearTo]
    split
    · exact Merged.Sound.of_silent rfl trivial
    · refine Merged.Sound.of_whole rfl trivial fun v same => ?_
      exact Reversal.restore.inj same ▸ formedThere.blank
  | bool b => exact sound_mergeScalar formedThere formed
  | number n => exact sound_mergeScalar formedThere formed
  | string s => exact sound_mergeScalar formedThere formed
  | array given ih =>
    have items := Value.wellFormed_array.1 formed
    cases there with
    | null => exact sound_takeWhole formed
    | array there =>
      cases there with
      | nil =>
        exact Merged.Sound.of_whole rfl (rules.exclusions.wellFormed_strip path formed) (by simp)
      | cons first rest =>
        -- The items are merged into blanks of the first one, which are well formed with it.
        have shape := (Value.wellFormed_array.1 formedThere first List.mem_cons_self).blank
        exact sound_mergeItems fun i item member => ih item member (items item member) _ shape
    | _ => exact sound_rejectAt formedThere
  | object given ih =>
    have inside := (Value.wellFormed_object.1 formed).2
    cases there with
    | null => exact sound_takeWhole formed
    | object there =>
      cases there with
      | nil =>
        exact Merged.Sound.of_whole rfl (wellFormed_wholeEntries rules.exclusions path formed)
          (by simp)
      | cons first rest =>
        obtain ⟨name, v⟩ := first
        rw [mergeInto]
        split
        · have shape := (Value.wellFormed_object.1 formedThere).2 (name, v) List.mem_cons_self
          exact sound_mergeEntries formed
            (fun entry member => ih entry member (inside entry member) _ shape.blank) rfl
        · exact sound_mergeObjects formedThere formed fun entry member v path formedThere =>
            ih entry member (inside entry member) path formedThere
    | _ => exact sound_rejectAt formedThere

/-- Every merge of well-formed structs is sound. -/
theorem sound_mergeStructs (rules : MergeRules) (path : Path) {fields given : Fields}
    (there : (Value.object fields).WellFormed) (formed : (Value.object given).WellFormed) :
    ((mergeObjects rules path fields given).map Value.object).Sound path :=
  sound_mergeObjects there formed fun entry member _ path within =>
    sound_mergeInto rules ((Value.wellFormed_object.1 formed).2 entry member) path within

end Sound

end Triversion
