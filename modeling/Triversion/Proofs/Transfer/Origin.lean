import Triversion.Proofs.Shape.Mould
import Triversion.Proofs.Transfer.Maps
import Triversion.Proofs.Transfer.Scalars

/-!
Where merged values come from.

Without exclusions a merge writes and loses parts of its source, each at its own route, and what it
does not write lies on routes of the destination's shape.
-/

namespace Triversion

namespace Path

/-- Fields and keys give the same names. -/
theorem names_bare (path : Path) : names (path.map Segment.bare) = path.names := by
  induction path with
  | nil => rfl
  | cons segment rest ih =>
    cases segment with
    | index i => exact ih
    | field name => exact congrArg (name :: ·) ih
    | key k => exact congrArg (k :: ·) ih

/-- Routes that differ only in fields and keys have the same names. -/
theorem names_eq_of_bare_eq {path other : Path}
    (same : path.map Segment.bare = other.map Segment.bare) : path.names = other.names := by
  rw [← names_bare, same, names_bare]

/-- Two routes part at some step, or one of them passes through the end of the other one. -/
theorem apart_or_covers (path other : Path) :
    path.Apart other ∨ path.Covers other ∨ other.Covers path := by
  induction path generalizing other with
  | nil => exact .inr (.inl (List.nil_prefix))
  | cons a p ih =>
    cases other with
    | nil => exact .inr (.inr (List.nil_prefix))
    | cons b q =>
      by_cases same : a.bare = b.bare
      · simp only [Covers, List.map_cons, same, List.cons_prefix_cons, true_and, Apart]
        exact (ih q).imp (fun apart _ => apart) id
      · exact .inl fun equal => absurd equal same

/-- Routes are apart exactly if neither of them passes through the end of the other. -/
theorem apart_iff {path other : Path} :
    path.Apart other ↔ ¬ path.Covers other ∧ ¬ other.Covers path := by
  constructor
  · intro apart
    induction path generalizing other with
    | nil => exact absurd apart (by simp [Apart])
    | cons a p ih =>
      cases other with
      | nil => exact absurd apart (by simp [Apart])
      | cons b q =>
        -- Behind a common first step the routes part later, and else neither covers the other.
        simp only [covers_cons_iff, not_and]
        exact ⟨fun same => (ih (apart same)).1, fun same => (ih (apart same.symm)).2⟩
  · rintro ⟨notOver, notUnder⟩
    exact (path.apart_or_covers other).resolve_right (not_or.2 ⟨notOver, notUnder⟩)

/-- A route passes through a route of the same names and positions. -/
theorem Covers.of_eq {path other : Path}
    (same : path.map Segment.bare = other.map Segment.bare) : path.Covers other := by
  unfold Covers
  exact same ▸ List.prefix_rfl

/-- A route that passes through the end of another one goes on from there. -/
theorem Covers.split {path other : Path} (covers : path.Covers other) :
    ∃ before after, other = before ++ after ∧
      path.map Segment.bare = before.map Segment.bare := by
  obtain ⟨rest, same⟩ := covers
  obtain ⟨before, after, rfl, beginning, _⟩ := List.map_eq_append_iff.1 same.symm
  exact ⟨before, after, rfl, beginning.symm⟩

/-- Where the names of a route lead, the names of its beginning lead as well. -/
theorem follow_isSome_of_append {before after : Path} {root : Shape}
    (leads : (Shape.follow (names (before ++ after)) root).isSome = true) :
    (Shape.follow before.names root).isSome = true := by
  rw [names, List.filterMap_append, Shape.follow_append] at leads
  exact Option.isSome_of_isSome_bind leads

end Path

namespace Shape

/-- All parts of a value at a place of the whole have a shape there. -/
def Covered (root : Shape) (path : Path) (v : Value) : Prop :=
  ∀ rest part, v.at? rest = some part → (follow (Path.names (path ++ rest)) root).isSome = true

/-- The place of a covered value has a shape. -/
theorem Covered.here {root : Shape} {path : Path} {v : Value} (covered : Covered root path v) :
    (follow path.names root).isSome = true := by
  have leads := covered [] v rfl
  rwa [List.append_nil] at leads

/-- A destination value at the place of a shape in the whole. -/
structure Stands (root shape : Shape) (path : Path) (v : Value) : Prop where
  once : shape.everywhere declaresOnce = true
  reached : follow path.names root = some shape.core
  moulds : shape.Moulds v

namespace Stands

variable {root shape : Shape} {path : Path} {v : Value}

theorem blank (stands : Stands root shape path v) : Stands root shape path v.blank :=
  ⟨stands.once, stands.reached, stands.moulds.blank⟩

/-- A part of a value stands at the place of a part of the shape. -/
theorem part (stands : Stands root shape path v) {segment : Segment} {part : Value}
    (found : v.step? segment = some part) :
    ∃ inner, Stands root inner (path ++ [segment]) part := by
  obtain ⟨inner, step, moulds⟩ := stands.moulds.step? found
  refine ⟨inner, step.everywhere stands.once, ?_, moulds⟩
  rw [Path.names, List.filterMap_append, follow_append, stands.reached, Option.bind_some,
    follow_core]
  have leads := step.follow stands.once []
  rw [List.append_nil] at leads
  cases segment <;> exact leads

/-- Every part of the value has a shape in the whole. -/
theorem covered (stands : Stands root shape path v) : Covered root path v := by
  intro rest part found
  induction rest generalizing shape path v with
  | nil => rw [List.append_nil, stands.reached, Option.isSome_some]
  | cons segment rest ih =>
    obtain ⟨next, first, later⟩ := Option.bind_eq_some_iff.1 found
    obtain ⟨inner, within⟩ := stands.part first
    have leads := ih within later
    rwa [List.append_assoc] at leads

/-- The blank of the first item stands at every position of its sequence. -/
theorem template {first : Value} {others : List Value}
    (stands : Stands root shape path (.array (first :: others))) :
    ∃ inner, ∀ i, Stands root inner (path.index i) first.blank := by
  have leads : (Value.array (first :: others)).step? (.index 0) = some first := rfl
  obtain ⟨inner, within⟩ := stands.part leads
  refine ⟨inner, fun i => ⟨within.once, ?_, within.moulds.blank⟩⟩
  rw [← within.reached, Path.names_index]
  exact congrArg (follow · root) (Path.names_index path 0).symm

/-- The blank of the first value stands under every key of its map. -/
theorem templateEntry {name : String} {first : Value} {others : Fields}
    (stands : Stands root shape path (.object ((name, first) :: others)))
    (isMap : shape.core.isMap = true) :
    ∃ inner, ∀ k, Stands root inner (path.key k) first.blank := by
  have once := everywhere_core stands.once
  have leads : (Value.object ((name, first) :: others)).step? (.field name) = some first := by
    simp [Value.step?, Keyed.get?]
  obtain ⟨inner, within⟩ := stands.part leads
  have reached : ∀ k, follow (path.key k).names root = (shape.core.under? k).map core := by
    intro k
    rw [Path.names_key, follow_append, stands.reached, Option.bind_some, follow, core_core]
    cases shape.core.under? k <;> rfl
  -- All keys of a map lead to one shape.
  obtain ⟨decimalKeys, values, same⟩ :
      ∃ decimalKeys values, shape.core = .map decimalKeys values := by
    cases core : shape.core with
    | map decimalKeys values => exact ⟨decimalKeys, values, rfl⟩
    | _ => simp [core, Shape.isMap] at isMap
  refine ⟨inner, fun k => ⟨within.once, ?_, within.moulds.blank⟩⟩
  have sameNames : Path.names (path ++ [.field name]) = (path.key name).names := by
    rw [Path.names_key]
    exact Path.names_field path name
  rw [← within.reached, sameNames, reached, reached, same]
  rfl

/-- A filled object stands at the place of a record if it does not stand at that of a map. -/
theorem core_of_object {fields : Fields} (stands : Stands root shape path (.object fields)) :
    shape.core.isMap = true ∨ ∃ rule declared, shape.core = .record rule declared := by
  obtain ⟨-, -, moulds⟩ := stands
  generalize object : Value.object fields = v at moulds
  induction moulds with
  | present _ ih => exact ih object
  | map => exact .inl rfl
  | record rule => exact .inr ⟨rule, _, rfl⟩
  | _ => simp [Value.whole] at object

end Stands

end Shape

/-- A write at a place that the shape knows, unless it adds a field at such a place. -/
structure Write.Fits (root : Shape) (write : Write) : Prop where
  place : write.reversal ≠ .remove → (Shape.follow write.path.names root).isSome = true
  removes : write.reversal = .remove → ∃ before name, write.path = Path.field before name ∧
    (Shape.follow (Path.names before) root).isSome = true
  restores : ∀ v, write.reversal = .restore v → ∃ shape, Shape.Stands root shape write.path v

/--
A merged part whose writes and losses are parts of the source at their own routes.

Whatever else the part holds lies on routes of the shape.
-/
structure Merged.Traces (root : Shape) (path : Path) (given : Value) (merged : Merged Value) :
    Prop where
  losses : ∀ loss ∈ merged.journal.losses, ∃ rest,
    loss.path = path ++ rest ∧ given.at? rest = some loss.value ∧ loss.value.isBlank = false
  writes : ∀ write ∈ merged.journal.writes, ∃ rest,
    write.path = path ++ rest ∧ merged.result.at? rest = given.at? rest ∧ write.Fits root
  parts : ∀ rest part, merged.result.at? rest = some part →
    (∃ write ∈ merged.journal.writes, write.path.Covers (path ++ rest)) ∨
      (Shape.follow (Path.names (path ++ rest)) root).isSome = true

namespace Merged.Traces

variable {root shape : Shape} {path : Path} {given : Value}

/-- A source value that is written as a whole is all there is. -/
theorem of_whole {reversal : Reversal} {merged : Merged Value} (result : merged.result = given)
    (writes : merged.journal.writes = [⟨path, reversal⟩]) (losses : merged.journal.losses = [])
    (fits : Write.Fits root ⟨path, reversal⟩) : merged.Traces root path given := by
  refine ⟨by simp [losses], ?_, ?_⟩
  · intro write member
    obtain rfl : write = ⟨path, reversal⟩ := by simpa [writes] using member
    exact ⟨[], (List.append_nil path).symm, by rw [result], fits⟩
  · intro rest part _
    refine .inl ⟨⟨path, reversal⟩, by simp [writes], ?_⟩
    rw [Path.Covers, List.map_append]
    exact List.prefix_append _ _

/-- Where nothing is written, the shape is all there is. -/
theorem of_silent {merged : Merged Value} (silent : merged.journal.writes = [])
    (losses : merged.journal.losses ⊆ lossOf path given)
    (covered : Shape.Covered root path merged.result) : merged.Traces root path given := by
  refine ⟨?_, by simp [silent], fun rest part found => .inr (covered rest part found)⟩
  intro loss member
  have lost := losses member
  unfold lossOf at lost
  split at lost
  · simp at lost
  · next filled =>
    obtain rfl := List.mem_singleton.1 lost
    exact ⟨[], (List.append_nil path).symm, rfl, Bool.eq_false_iff.2 filled⟩

/-- Parts behind different steps can be put together, beside others that have a shape. -/
theorem of_parts {whole : Value} {journal : Journal} (parts : List (Segment × Merged Value))
    (writes : journal.writes = parts.flatMap fun part => part.2.journal.writes)
    (losses : journal.losses = parts.flatMap fun part => part.2.journal.losses)
    (traces : ∀ part ∈ parts, ∃ source, given.step? part.1 = some source ∧
      part.2.Traces root (path ++ [part.1]) source)
    (found : ∀ part ∈ parts, whole.step? part.1 = some part.2.result)
    (here : (Shape.follow path.names root).isSome = true)
    (others : ∀ segment part, whole.step? segment = some part →
      (∃ other ∈ parts, other.1.bare = segment.bare ∧ other.2.result = part) ∨
        Shape.Covered root (path ++ [segment]) part) :
    Merged.Traces root path given ⟨whole, journal⟩ := by
  refine ⟨?_, ?_, ?_⟩
  · -- A loss or a write of the whole is one of some part.
    intro loss member
    obtain ⟨part, listed, member⟩ := List.mem_flatMap.1 (losses ▸ member)
    obtain ⟨source, leads, traced⟩ := traces part listed
    obtain ⟨rest, route, stands, filled⟩ := traced.losses loss member
    refine ⟨part.1 :: rest, by simpa using route, ?_, filled⟩
    rw [Value.at?, leads, Option.bind_some, stands]
  · intro write member
    obtain ⟨part, listed, member⟩ := List.mem_flatMap.1 (writes ▸ member)
    obtain ⟨source, leads, traced⟩ := traces part listed
    obtain ⟨rest, route, stands, fits⟩ := traced.writes write member
    refine ⟨part.1 :: rest, by simpa using route, ?_, fits⟩
    rw [Value.at?, Value.at?, leads, found part listed, Option.bind_some, Option.bind_some, stands]
  · intro rest inner leads
    cases rest with
    | nil => exact .inr (by rwa [List.append_nil])
    | cons segment rest =>
      obtain ⟨part, first, later⟩ := Option.bind_eq_some_iff.1 leads
      have split : path ++ segment :: rest = path ++ [segment] ++ rest := by simp
      rcases others segment part first with ⟨other, listed, same, rfl⟩ | covered
      · obtain ⟨_, _, traced⟩ := traces other listed
        -- The step may be a field where the part was merged under a key, or the other way round.
        have sameRoute : (path ++ [other.1] ++ rest).map Segment.bare =
            (path ++ segment :: rest).map Segment.bare := by
          simp [same]
        refine (traced.parts rest inner later).imp ?_ fun shaped => ?_
        · rintro ⟨write, member, covers⟩
          refine ⟨write, writes ▸ List.mem_flatMap.2 ⟨other, listed, member⟩, ?_⟩
          rwa [Path.Covers, ← sameRoute]
        · rwa [← Path.names_eq_of_bare_eq sameRoute]
      · exact .inr (split ▸ covered rest inner later)

end Merged.Traces

section Merge

open Shape

variable {root shape : Shape} {maps : List Path} {path : Path}

/-- A write at the place of a destination value fits if what it restores stands there as well. -/
theorem fits_of_stands {v : Value} (stands : Stands root shape path v) {reversal : Reversal}
    (stays : reversal ≠ .remove)
    (restores : ∀ old, reversal = .restore old → Stands root shape path old) :
    Write.Fits root ⟨path, reversal⟩ :=
  ⟨fun _ => stands.covered.here, fun removes => absurd removes stays,
    fun old same => ⟨shape, restores old same⟩⟩

/-- A source value that a null destination takes is traced. -/
theorem traces_takeWhole {given : Value} (stands : Stands root shape path .null) :
    (takeWhole ⟨.none, maps⟩ path given).Traces root path given :=
  .of_whole (Exclusions.strip_none path given) rfl rfl
    (fits_of_stands stands (by simp) fun _ same => Reversal.restore.inj same ▸ stands)

/-- A source value that is rejected is traced as a loss. -/
theorem traces_rejectAt {there given : Value} (stands : Stands root shape path there) :
    (rejectAt there path given).Traces root path given :=
  .of_silent rfl (List.Subset.refl _) stands.blank.covered

/-- A merged scalar is traced. -/
theorem traces_mergeScalar {there given : Value} (stands : Stands root shape path there) :
    (mergeScalar ⟨.none, maps⟩ there path given).Traces root path given := by
  unfold mergeScalar
  split
  · next null =>
    obtain rfl := Value.isNull_iff.1 null
    exact traces_takeWhole stands
  · split
    · exact .of_whole rfl rfl rfl
        (fits_of_stands stands (by simp) fun _ same => Reversal.restore.inj same ▸ stands.blank)
    · exact traces_rejectAt stands

/-- A merged sequence is traced if its items are. -/
theorem traces_mergeItems {template : Value} {given : List Value}
    (here : (follow path.names root).isSome = true)
    (traces : ∀ i, ∀ item ∈ given, (mergeInto ⟨.none, maps⟩ template (path.index i) item).Traces
      root (path.index i) item) :
    ((mergeItems ⟨.none, maps⟩ template path 0 given).map .array).Traces root path
      (.array given) := by
  have inside : ∀ item ∈ given.zipIdx, item.1 ∈ given := fun item listed =>
    List.mem_of_getElem? (List.mem_zipIdx_iff_getElem?.1 listed)
  rw [mergeItems_eq]
  refine .of_parts (given.zipIdx.map fun item =>
    (.index item.2, mergeInto ⟨.none, maps⟩ template (path.index item.2) item.1))
    ?_ ?_ ?_ ?_ here ?_
  · simp only [Journal.writes_all, List.flatMap_map]
  · simp only [Journal.losses_all, List.flatMap_map]
  · intro part member
    obtain ⟨item, listed, rfl⟩ := List.mem_map.1 member
    exact ⟨item.1, List.mem_zipIdx_iff_getElem?.1 listed, traces item.2 item.1 (inside item listed)⟩
  · intro part member
    obtain ⟨item, listed, rfl⟩ := List.mem_map.1 member
    simp only [Value.step?, List.getElem?_map, List.getElem?_zipIdx,
      List.mem_zipIdx_iff_getElem?.1 listed, Option.map_some, Nat.zero_add]
  · -- Every item of the result is the merge of an item.
    intro segment part found
    cases segment with
    | index i =>
      simp only [Value.step?, List.getElem?_map, List.getElem?_zipIdx, Option.map_map,
        Option.map_eq_some_iff, Nat.zero_add, Function.comp_def] at found
      obtain ⟨item, held, rfl⟩ := found
      exact .inl ⟨_, List.mem_map.2 ⟨(item, i), List.mem_zipIdx_iff_getElem?.2 held, rfl⟩, rfl, rfl⟩
    | _ => simp [Value.step?] at found

/-- A merged map is traced if its entries are. -/
theorem traces_mergeEntries {template : Value} {given : Fields}
    (distinct : (given.map (·.1)).Nodup) (here : (follow path.names root).isSome = true)
    (traces : ∀ entry ∈ given, (mergeInto ⟨.none, maps⟩ template (path.key entry.1) entry.2).Traces
      root (path.key entry.1) entry.2) :
    let merged := mergeEntries ⟨.none, maps⟩ template path given
    Merged.Traces root path (.object given)
      ⟨.object merged.result, .mapAt path ++ merged.journal⟩ := by
  rw [mergeEntries_eq]
  refine .of_parts (given.map fun entry =>
    (.key entry.1, mergeInto ⟨.none, maps⟩ template (path.key entry.1) entry.2)) ?_ ?_ ?_ ?_ here ?_
  · exact (Journal.writes_all _).trans (by rw [List.flatMap_map, List.flatMap_map])
  · exact (Journal.losses_all _).trans (by rw [List.flatMap_map, List.flatMap_map])
  · intro part member
    obtain ⟨entry, listed, rfl⟩ := List.mem_map.1 member
    exact ⟨entry.2, Keyed.get?_of_mem distinct listed, traces entry listed⟩
  · intro part member
    obtain ⟨entry, listed, rfl⟩ := List.mem_map.1 member
    rw [Value.step?,
      Keyed.get?_map fun k v => (mergeInto ⟨.none, maps⟩ template (path.key k) v).result,
      Keyed.get?_of_mem distinct listed]
    rfl
  · intro segment part found
    rw [Value.step?_object] at found
    obtain ⟨name, named, held⟩ := Option.bind_eq_some_iff.1 found
    rw [Keyed.get?_map fun k v => (mergeInto ⟨.none, maps⟩ template (path.key k) v).result] at held
    obtain ⟨v, listed, rfl⟩ := Option.map_eq_some_iff.1 held
    refine .inl ⟨_, List.mem_map.2 ⟨(name, v), Keyed.mem_of_get? listed, rfl⟩, ?_, rfl⟩
    cases segment <;> simp_all [Segment.name?, Segment.bare]

/-- The names that are kept of a list stand where the list stood. -/
theorem covered_mergedList {known : List String} {given : Option Value} {old : Value}
    (covered : Covered root path old) : Covered root path (mergedList known given old) := by
  unfold mergedList
  split
  · next names =>
    -- A name that is kept is a text, and has no parts.
    intro rest part found
    have here := covered.here
    match rest with
    | [] => rwa [List.append_nil]
    | .index i :: rest =>
      obtain ⟨item, held, later⟩ := Option.bind_eq_some_iff.1 found
      have kept := (List.mem_filter.1 (List.mem_of_getElem? held)).2
      cases item with
      | string s =>
        cases rest with
        | nil => rwa [← Path.names_index path i] at here
        | cons next _ => cases next <;> simp [Value.at?, Value.step?] at later
      | _ => simp at kept
    | .field _ :: _ | .key _ :: _ => simp [Value.at?, Value.step?] at found
  · exact covered

/-- A merged struct is traced if its fields are. -/
theorem traces_mergeObjects {fields given : Fields}
    (stands : Stands root shape path (.object fields)) (distinct : (given.map (·.1)).Nodup)
    (traces : ∀ entry ∈ given, ∀ inner v, Stands root inner (path.field entry.1) v →
      (mergeInto ⟨.none, maps⟩ v (path.field entry.1) entry.2).Traces root
        (path.field entry.1) entry.2) :
    ((mergeObjects ⟨.none, maps⟩ path fields given).map .object).Traces root path
      (.object given) := by
  have here : (follow path.names root).isSome = true := by rw [stands.reached, Option.isSome_some]
  have takenNodup := takenFields_nodup ⟨.none, maps⟩ path distinct
  -- Every field that is taken is a part, and all other fields are the destination's.
  refine .of_parts ((takenFields ⟨.none, maps⟩ path given).map fun entry =>
    (.field entry.1, mergeField ⟨.none, maps⟩ path (Keyed.get? entry.1 fields) entry.1 entry.2))
    ?_ ?_ ?_ ?_ here ?_
  · simp only [journal_mergeObjects _ path distinct, Journal.writes_all, List.flatMap_map]
  · simp only [journal_mergeObjects _ path distinct, Journal.losses_all, List.flatMap_map]
  · intro part member
    obtain ⟨entry, listed, rfl⟩ := List.mem_map.1 member
    have given := (mem_takenFields.1 listed).1
    refine ⟨entry.2, Keyed.get?_of_mem distinct given, ?_⟩
    cases held : Keyed.get? entry.1 fields with
    | some old =>
      have leads : (Value.object fields).step? (.field entry.1) = some old := held
      obtain ⟨inner, within⟩ := stands.part leads
      exact traces entry given inner old within
    | none =>
      -- A new field is written as a whole, below a place that is there.
      exact .of_whole (Exclusions.strip_none _ _) rfl rfl
        ⟨by simp, fun _ => ⟨path, entry.1, rfl, here⟩, by simp⟩
  · intro part member
    obtain ⟨entry, listed, rfl⟩ := List.mem_map.1 member
    have ordinary := ordinary_of_taken listed
    change Keyed.get? entry.1 (mergeObjects ⟨.none, maps⟩ path fields given).result = _
    rw [get?_mergeObjects _ path distinct fields ordinary, Keyed.get?_of_mem takenNodup listed]
    rfl
  · intro segment part found
    obtain ⟨name, named, held⟩ :=
      Option.bind_eq_some_iff.1 ((Value.step?_object _ _).symm.trans found)
    -- What the destination had under the name stands at its place in the shape.
    have old : ∀ v, Keyed.get? name fields = some v → Covered root (path ++ [segment]) v := by
      intro v before
      have leads : (Value.object fields).step? segment = some v := by
        rw [Value.step?_object, named, Option.bind_some, before]
      obtain ⟨inner, within⟩ := stands.part leads
      exact within.covered
    cases ordinary : isBookkeeping name with
    | true =>
      rw [get?_mergeObjects_list distinct ordinary] at held
      obtain ⟨v, before, rfl⟩ := Option.map_eq_some_iff.1 held
      exact .inr (covered_mergedList (old v before))
    | false =>
      rw [get?_mergeObjects _ path distinct fields ordinary] at held
      cases taken : Keyed.get? name (takenFields ⟨.none, maps⟩ path given) with
      | none =>
        rw [taken, Option.map_none, Option.none_or] at held
        exact .inr (old part held)
      | some v =>
        rw [taken, Option.map_some, Option.some_or] at held
        refine .inl ⟨_, List.mem_map.2 ⟨(name, v), Keyed.mem_of_get? taken, rfl⟩, ?_,
          Option.some.inj held⟩
        cases segment <;> simp_all [Segment.name?, Segment.bare]

/-- Without exclusions every merge into a value of the shape is traced. -/
theorem traces_mergeInto (sound : MapsOf root maps) {given : Value} (formed : given.WellFormed)
    {there : Value} (stands : Stands root shape path there) :
    (mergeInto ⟨.none, maps⟩ there path given).Traces root path given := by
  have here : (follow path.names root).isSome = true := by rw [stands.reached, Option.isSome_some]
  induction given using Value.inductionOn generalizing there path shape with
  | null =>
    rw [mergeInto, clearTo]
    split
    · next null =>
      obtain rfl := Value.isNull_iff.1 null
      exact .of_silent rfl (List.nil_subset _) stands.covered
    · exact .of_whole rfl rfl rfl
        (fits_of_stands stands (by simp) fun _ same => Reversal.restore.inj same ▸ stands.blank)
  | bool b => exact traces_mergeScalar stands
  | number n => exact traces_mergeScalar stands
  | string s => exact traces_mergeScalar stands
  | array given ih =>
    have items := Value.wellFormed_array.1 formed
    -- Sequences meet sequences or are taken or rejected as a whole.
    cases there with
    | null => exact traces_takeWhole stands
    | array there =>
      cases there with
      | nil =>
        exact .of_whole (Exclusions.strip_none path (.array given)) rfl rfl
          (fits_of_stands stands (by simp) (by simp))
      | cons first rest =>
        obtain ⟨inner, template⟩ := stands.template
        exact traces_mergeItems here fun i item member =>
          ih item member (items item member) (template i) (template i).covered.here
    | _ => exact traces_rejectAt stands
  | object given ih =>
    have inside := (Value.wellFormed_object.1 formed).2
    cases there with
    | null => exact traces_takeWhole stands
    | object there =>
      cases there with
      | nil =>
        exact .of_whole (congrArg Value.object (wholeEntries_none path given)) rfl rfl
          (fits_of_stands stands (by simp) (by simp))
      | cons first rest =>
        obtain ⟨name, v⟩ := first
        rw [mergeInto]
        split
        · next known =>
          -- A record is not taken for a map, so all values have the shape of the first one.
          have isMap : shape.core.isMap = true := by
            refine stands.core_of_object.resolve_right fun record => ?_
            obtain ⟨rule, declared, core⟩ := record
            rw [sound.isMapAt_record (stands.reached.trans (congrArg some core))] at known
            simp at known
          obtain ⟨inner, template⟩ := stands.templateEntry isMap
          exact traces_mergeEntries formed.distinct here fun entry member =>
            ih entry member (inside entry member) (template entry.1) (template entry.1).covered.here
        · exact traces_mergeObjects stands formed.distinct fun entry member inner v within =>
            ih entry member (inside entry member) within within.covered.here
    | _ => exact traces_rejectAt stands

end Merge

end Triversion
