import Triversion.Catalog
import Triversion.Proofs.Transfer.Again

/-!
Copies into values of fixed structure are idempotent.

Such a value takes or refuses each write on its own, so the candidate that halving ends with can be
read off the merge. What it settles as meets the same source again, and repeats.
-/

namespace Triversion

open Shape

section Simple

variable {path : Path} {shape : Shape}

/-- A part of known content is written simply. -/
theorem Write.simple_restore (old : Value) : Write.Simple path shape ⟨path, .restore old⟩ :=
  ⟨⟨[], (List.append_nil _).symm, trivial⟩, by simp, by simp, by simp [Write.RemovesField]⟩

/-- A new field is written simply into a record. -/
theorem Write.simple_remove {rule : RecordRule} {declared : List (FieldRule × Shape)}
    (name : String) : Write.Simple path (.record rule declared) ⟨path.field name, .remove⟩ :=
  ⟨⟨[.field name], rfl, name, rfl, fun _ _ => trivial⟩, by simp, by simp,
    fun _ => ⟨path, name, rfl⟩⟩

/-- What is written simply behind a field is written simply behind its record. -/
theorem Write.Simple.of_field {rule : RecordRule} {declared : List (FieldRule × Shape)}
    (distinct : (names declared).Nodup) {field : FieldRule × Shape} (member : field ∈ declared)
    {write : Write} (simple : write.Simple (path.field field.1.name) field.2) :
    write.Simple path (.record rule declared) := by
  obtain ⟨⟨rest, route, passes⟩, notSequence, notMap, removes⟩ := simple
  refine ⟨⟨.field field.1.name :: rest, ?_, field.1.name, rfl, fun inner found => ?_⟩, notSequence,
    notMap, removes⟩
  · rw [route, Path.field, List.append_assoc, List.singleton_append]
  · rw [under?_record distinct member] at found
    exact Option.some.inj found ▸ passes

/-- Whatever is merged into a value of fixed structure is written simply, and no map is met. -/
theorem simple_mergeInto (exclusions : Exclusions) (path : Path)
    (fixed : shape.everywhere isFixed = true)
    (kind : (shape.isLeaf || shape.isRecord) = true) {there given : Value}
    (again : shape.rebuild there = some there) (formed : given.WellFormed) :
    (∀ write ∈ (mergeInto ⟨exclusions, []⟩ there path given).journal.writes,
      write.Simple path shape) ∧
      (mergeInto ⟨exclusions, []⟩ there path given).journal.maps = [] := by
  induction shape using inductionOn generalizing path there given with
  | record rule declared ih =>
    obtain ⟨here, inside⟩ := everywhere_record.1 fixed
    obtain ⟨all, _, each⟩ := isFixed_record.1 here
    obtain ⟨fields, rfl, filled, rebuilds⟩ := rebuilds_of_isFixed fixed again
    cases given with
    | null =>
      rw [mergeInto_clears]
      exact ⟨List.forall_mem_singleton.2 (Write.simple_restore _), rfl⟩
    | object given =>
      rw [mergeInto_struct filled]
      -- Each field that is taken is merged into a field of the shape, or is new.
      have parts : ∀ entry ∈ takenFields ⟨exclusions, []⟩ path given,
          (∀ write ∈ (mergeField ⟨exclusions, []⟩ path (Keyed.get? entry.1 fields) entry.1
            entry.2).journal.writes, write.Simple path (.record rule declared)) ∧
          (mergeField ⟨exclusions, []⟩ path (Keyed.get? entry.1 fields) entry.1
            entry.2).journal.maps = [] := by
        intro entry taken
        cases held : Keyed.get? entry.1 fields with
        | none => exact ⟨List.forall_mem_singleton.2 (Write.simple_remove _), rfl⟩
        | some old =>
          obtain ⟨field, member, named, same⟩ :=
            rebuilds.field_of_get? (writesAll.readsAll all) held
          have kind := each field member
          rw [isFixedField, named, ordinary_of_taken taken, if_neg Bool.false_ne_true] at kind
          obtain ⟨simple, maps⟩ := ih field member (path.field entry.1)
            (inside field member) kind same
            ((Value.wellFormed_object.1 formed).2 entry (mem_takenFields.1 taken).1)
          have distinct := (writesAll_iff.1 all).2.1
          exact ⟨fun write written => .of_field distinct member (named ▸ simple write written),
            maps⟩
      simp only [Merged.map, journal_mergeObjects _ _ formed.distinct, Journal.writes_all,
        Journal.maps_all, List.flatMap_map]
      refine ⟨fun write written => ?_,
        List.flatMap_eq_nil_iff.2 fun entry taken => (parts entry taken).2⟩
      obtain ⟨entry, taken, written⟩ := List.mem_flatMap.1 written
      exact (parts entry taken).1 write written
    | _ =>
      rw [mergeInto_object rfl rfl]
      exact ⟨by simp [rejectAt, Journal.lost], rfl⟩
  | bool | string | integer low high | float | optional shape =>
    obtain ⟨written, maps⟩ := journal_mergeInto_leaf ⟨exclusions, []⟩ path
      (scalarFits_self_of_leaf (by simpa [isRecord] using kind) again) given
    refine ⟨fun write member => ?_, maps⟩
    rcases written with silent | ⟨old, written⟩
    · rw [silent] at member
      simp at member
    · rw [written] at member
      exact List.mem_singleton.1 member ▸ Write.simple_restore old
  | _ => simp [isLeaf, isPlain, isRecord] at kind

end Simple

/-- In a value of fixed structure there is no map. -/
theorem mapPaths_of_fixed {shape : Shape} (fixed : shape.everywhere isFixed = true)
    {fields : Fields} (formed : (Value.object fields).WellFormed)
    (again : shape.rebuild (.object fields) = some (.object fields)) :
    mapPaths shape.rebuild fields = [] := by
  have free : shape.everywhere (fun inner => !inner.isMap) = true :=
    everywhere_mono (fun inner holds => by cases inner <;> simp_all [isFixed, isLeaf, isPlain,
      isNameList, isMap]) fixed
  refine List.eq_nil_iff_forall_not_mem.2 fun route member => ?_
  obtain ⟨inner, follows, isMap⟩ := follow_of_mem_mapPaths
    (anchored_of_steady (steady_of_fixed fixed)) formed again route
    member
  rw [not_isMap_of_follow free follows] at isMap
  simp at isMap

namespace Transfer

variable {σ δ : Type} {exclusions : Exclusions} {codec : Codec δ} {rule : RecordRule}
  {declared : List (FieldRule × Shape)} {fields given : Fields}

/-- A source struct and a written destination of fixed structure, which is rebuilt as it is. -/
structure Onto (codec : Codec δ) (rule : RecordRule) (declared : List (FieldRule × Shape))
    (fields given : Fields) : Prop where
  follows : codec.Follows (.record rule declared)
  writable : ∀ v x, codec.decode v = some x → ∃ w, codec.encode x = .ok w
  fixed : (Shape.record rule declared).everywhere isFixed = true
  again : (Shape.record rule declared).rebuild (.object fields) = some (.object fields)
  formedThere : (Value.object fields).WellFormed
  formed : (Value.object given).WellFormed

namespace Onto

variable (onto : Onto codec rule declared fields given)

include onto

theorem mapPaths : mapPaths codec.roundTrip fields = [] := by
  rw [funext onto.follows]
  exact mapPaths_of_fixed onto.fixed onto.formedThere onto.again

theorem decides (v : Value) :
    (codec.decode v).isSome = ((Shape.record rule declared).rebuild v).isSome := by
  rw [← accepts_iff onto.writable, accepts, onto.follows]

/-- The structs are merged as any value into what is there. -/
theorem merged : mergeInto ⟨exclusions, []⟩ (.object fields) Path.root (.object given) =
    (merge exclusions codec fields given).map .object := by
  obtain ⟨_, same, filled, _⟩ := rebuilds_of_isFixed onto.fixed onto.again
  obtain rfl := Value.object.inj same
  rw [mergeInto_struct filled, merge, onto.mapPaths]

/-- Once its writes are decided, the merge has met the destination at the root. -/
theorem meets {keeps : Write → Bool} {candidate : Value}
    (place : Place (.record rule declared) Path.root
      (.object (merge exclusions codec fields given).result)
      ((merge exclusions codec fields given).map .object) keeps candidate) :
    Meets exclusions (.record rule declared) (.record rule declared) Path.root
      (.object (merge exclusions codec fields given).result) keeps candidate (.object fields)
      (.object given) :=
  ⟨onto.fixed, rfl, onto.again, onto.formedThere, onto.formed, fun _ _ => rfl,
    onto.merged ▸ place⟩

theorem simple : ∀ write ∈ (merge exclusions codec fields given).journal.writes,
    write.Simple Path.root (.record rule declared) := by
  have written :=
    (simple_mergeInto exclusions Path.root onto.fixed rfl onto.again onto.formed).1
  rwa [onto.merged] at written

theorem maps : (merge exclusions codec fields given).journal.maps = [] := by
  have none := (simple_mergeInto exclusions Path.root onto.fixed rfl onto.again onto.formed).2
  rwa [onto.merged] at none

/-- With all its writes taken back, the merged candidate is accepted. -/
theorem bare_accepted :
    ((Shape.record rule declared).rebuild (bare exclusions codec fields given)).isSome = true := by
  have sound := sound_merge exclusions codec onto.formedThere onto.formed
  -- The bare candidate is the one in which no write is kept.
  have place : Place (.record rule declared) Path.root
      (.object (merge exclusions codec fields given).result)
      ((merge exclusions codec fields given).map .object) (fun _ => false)
      (bare exclusions codec fields given) := {
    found := rfl
    wellFormed := wellFormed_bare onto.formedThere onto.formed
    outside := fun rest apart =>
      (sameOutside_takeBackAll _ _ rest (List.forall_mem_map.2 apart)).1
    ends := at?_takeBackAll sound.wellFormed sound.apart (found_merge onto.formedThere onto.formed)
      sound.restores fun write member => (onto.simple write member).removes
    taken := by simp }
  obtain ⟨part, settled, settles⟩ := (onto.meets place).settles
  obtain rfl := Option.some.inj settles.stands
  rw [settles.rebuilt, Option.isSome_some]

/-- What is accepted at once takes every write. -/
theorem keeps_of_fits
    (fits : (codec.decode (.object (merge exclusions codec fields given).result)).isSome = true) :
    ∀ write ∈ (merge exclusions codec fields given).journal.writes,
      (Shape.record rule declared).keeps (.object (merge exclusions codec fields given).result)
        write = true := by
  intro write member
  obtain ⟨v, leads⟩ := found_merge onto.formedThere onto.formed write member
  rw [Shape.keeps, leads, Option.all_some]
  exact takes_of_rebuild (steady_of_fixed onto.fixed)
    (onto.simple write member).passes_root ((onto.decides _).symm.trans fits) leads

/-- The candidate of a copy keeps exactly the writes that are taken, and the others are lost. -/
theorem exists_place (exclusions : Exclusions) : ∃ whole,
    candidate exclusions codec fields given =
      (whole, (merge exclusions codec fields given).journal.losses ++
        refusals (.record rule declared) (.object (merge exclusions codec fields given).result)
          (merge exclusions codec fields given).journal.writes) ∧
    Place (.record rule declared) Path.root (.object (merge exclusions codec fields given).result)
      ((merge exclusions codec fields given).map .object)
      ((Shape.record rule declared).keeps (.object (merge exclusions codec fields given).result))
      whole := by
  have sound := sound_merge exclusions codec onto.formedThere onto.formed
  have found := @found_merge _ exclusions codec _ _ onto.formedThere onto.formed
  have steady := steady_of_fixed onto.fixed
  -- What is accepted as merged takes every write, so that nothing is refused.
  cases fits : (codec.decode (.object (merge exclusions codec fields given).result)).isSome with
  | true =>
    have kept := onto.keeps_of_fits fits
    refine ⟨.object (merge exclusions codec fields given).result, ?_, rfl, sound.wellFormed,
      fun _ _ => rfl, fun write member => ?_, fun _ _ kept => kept⟩
    · have none : refusals (.record rule declared)
          (.object (merge exclusions codec fields given).result)
          (merge exclusions codec fields given).journal.writes = [] :=
        List.flatMap_eq_nil_iff.2 fun write member => by rw [kept write member, if_pos rfl]
      rw [none, List.append_nil, candidate]
      simp only [fits, if_true]
    · exact (if_pos (kept write member)).symm
  | false =>
    have acceptable : accepts codec (bare exclusions codec fields given) = true := by
      rw [accepts, onto.follows]
      exact onto.bare_accepted
    have back := at?_takeBackAll sound.wellFormed sound.apart found sound.restores
      fun write member => (onto.simple write member).removes
    obtain ⟨ends, losses, _⟩ := endsBy_redo steady (fun v => by rw [accepts, onto.follows])
      sound.wellFormed sound.apart (ready_bare onto.formedThere onto.formed)
      (wellFormed_bare onto.formedThere onto.formed) onto.simple back acceptable
    simp only [Merged.map] at losses
    have redone := redone_bare onto.formedThere onto.formed
      (Prod.eta (redo (accepts codec) _ (merge exclusions codec fields given).journal.writes
        (bare exclusions codec fields given))).symm
    refine ⟨_, by rw [candidate_of_refused fits acceptable, losses], rfl, redone.wellFormed,
      fun rest apart => ?_, ends, fun _ _ kept => kept⟩
    -- Neither taking back nor halving touches what is apart from all writes.
    have apart : ∀ other ∈ (merge exclusions codec fields given).journal.writes.map (·.path),
        other.Apart rest := List.forall_mem_map.2 apart
    exact (redone.outside rest apart).1.trans (sameOutside_takeBackAll _ _ rest apart).1

/-- A copy ends with what its candidate is rebuilt as, and reports what is gone from there. -/
theorem copied {source : Codec σ} {src : σ} {dest new : δ} {whole settled : Value}
    {lost : List Loss} (written : source.encode src = .ok (.object given))
    (there : codec.encode dest = .ok (.object fields))
    (chosen : candidate exclusions codec fields given = (whole, lost))
    (rebuilt : codec.decode whole = some new) (writtenNew : codec.encode new = .ok settled) :
    copy exclusions source codec src dest =
      ⟨.ok new, lost ++ forgotten [] settled Path.root whole⟩ := by
  simp only [copy, Codec.write, written, there, copyFields, chosen, Codec.rebuild, rebuilt,
    writtenNew, knownMaps, onto.mapPaths, onto.maps, List.append_nil]

end Onto

/--
Copying into a destination of fixed structure always goes through, and is idempotent.

Made again, the copy of the same source leaves the destination as it is and reports the same.
-/
theorem copy_again {source : Codec σ} (follows : codec.Follows (.record rule declared))
    (writable : ∀ v x, codec.decode v = some x → ∃ w, codec.encode x = .ok w)
    (fixed : (Shape.record rule declared).everywhere isFixed = true) {src : σ} {dest : δ}
    {there : Value} (written : source.encode src = .ok (.object given))
    (formed : (Value.object given).WellFormed) (restores : codec.Restores dest there) :
    ∃ new losses, copy exclusions source codec src dest = ⟨.ok new, losses⟩ ∧
      copy exclusions source codec src new = ⟨.ok new, losses⟩ := by
  have again := restores.fixed follows
  obtain ⟨fields, rfl, _⟩ := rebuilds_of_isFixed fixed again
  have onto : Onto codec rule declared fields given :=
    ⟨follows, writable, fixed, again, restores.wellFormed, formed⟩
  obtain ⟨whole, chosen, place⟩ := onto.exists_place exclusions
  have before := onto.meets place
  -- The candidate is rebuilt, and what it settles as is the destination of the second copy.
  obtain ⟨part, settled, settles⟩ := before.settles
  obtain rfl := Option.some.inj settles.stands
  obtain ⟨new, rebuilt, writtenNew⟩ := roundTrip_eq_some.1 ((follows _).trans settles.rebuilt)
  obtain ⟨fieldsAgain, rfl, _⟩ := rebuilds_of_isFixed fixed settles.again
  have ontoAgain : Onto codec rule declared fieldsAgain given :=
    ⟨follows, writable, fixed, settles.again, settles.wellFormed, formed⟩
  obtain ⟨wholeAgain, chosenAgain, placeAgain⟩ := ontoAgain.exists_place exclusions
  -- Both candidates are equal, so they are rebuilt as the same destination.
  have repeats := repeatsAt before settles (ontoAgain.meets placeAgain)
  rw [onto.merged, ontoAgain.merged] at repeats
  obtain rfl : wholeAgain = whole := Option.some.inj repeats.stands
  refine ⟨new, _, onto.copied written restores.written chosen rebuilt writtenNew, ?_⟩
  have losses := repeats.losses
  have refusals := repeats.refusals
  simp only [Merged.map] at losses refusals
  rw [ontoAgain.copied written writtenNew chosenAgain rebuilt writtenNew, losses, refusals]

/--
A copy that loses a value in each way repeats.

A number is no name, a size is out of range, null takes a text that is refused, and nothing keeps
an unknown field.
-/
theorem copy_again_of_losses : ∃ new losses,
    copy .none (Shape.any.codec "Value") (Catalog.nullsOnly.codec "NullsOnly")
      (.object [("Extra", .bool true), ("Maybe", .string "some"), ("Name", .whole 5),
        ("NullFields", .strings ["Name", "Extra"]), ("Size", .whole (-1))])
      (.object [("Maybe", .null), ("Name", .string "old"), ("NullFields", .strings []),
        ("Size", .whole 7)]) = ⟨.ok new, losses⟩ ∧
    copy .none (Shape.any.codec "Value") (Catalog.nullsOnly.codec "NullsOnly")
      (.object [("Extra", .bool true), ("Maybe", .string "some"), ("Name", .whole 5),
        ("NullFields", .strings ["Name", "Extra"]), ("Size", .whole (-1))]) new =
      ⟨.ok new, losses⟩ :=
  copy_again (Shape.follows_codec "NullsOnly" Catalog.nullsOnly) (fun _ x _ => ⟨x, rfl⟩)
    (by decide) rfl (by decide) ⟨rfl, by rfl, by decide⟩

/-- Two maps of counts, of which the second one is empty. -/
private def nestedCounts : Value :=
  .object [("Nested", .object [("a", .object [("p", .whole 1)]), ("b", .object [])])]

/-- The same counts as fields of maps that were empty. -/
private def nestedMaps : Value :=
  .object [("Counts", .object []), ("Grid", .array []), ("Groups", .object []),
    ("Items", .array []), ("Maybe", .null),
    ("Nested", .object [("a", .object [("p", .whole 1)]), ("b", .object [])]),
    ("Rules", .object [])]

/--
Not every copy repeats.

Empty maps take the source as it is. Made again, the copy finds a map of maps, and takes the blank
of the first one for the shape of them all, so that the empty one becomes filled.
-/
theorem not_every_copy_repeats :
    ¬ ∀ (σ δ : Type) (exclusions : Exclusions) (source : Codec σ) (codec : Codec δ)
        (rule : RecordRule) (declared : List (FieldRule × Shape)),
      codec.Follows (.record rule declared) →
      (Shape.record rule declared).everywhere isSteady = true →
      ∀ (src : σ) (dest new : δ) (there given : Value) (losses : List Loss),
        codec.Restores dest there → source.encode src = .ok given → given.WellFormed →
        copy exclusions source codec src dest = ⟨.ok new, losses⟩ →
        copy exclusions source codec src new = ⟨.ok new, losses⟩ := by
  intro always
  have first : (copy .none (Shape.any.codec "Value") (Catalog.maps.codec "Maps") nestedCounts
      Catalog.maps.initial) = ⟨.ok nestedMaps, []⟩ := by rfl
  -- The second copy fills the empty map of the second entry.
  have changed : (copy .none (Shape.any.codec "Value") (Catalog.maps.codec "Maps") nestedCounts
      nestedMaps).result.toOption ≠ some nestedMaps := by decide +kernel
  have again := always Value Value .none (Shape.any.codec "Value") (Catalog.maps.codec "Maps") _ _
    (Shape.follows_codec "Maps" Catalog.maps) (by decide) nestedCounts Catalog.maps.initial
    nestedMaps Catalog.maps.initial nestedCounts [] ⟨rfl, by rfl, by decide⟩ rfl (by decide) first
  exact changed (congrArg (fun outcome => outcome.result.toOption) again)

end Transfer

end Triversion
