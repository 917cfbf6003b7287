import Triversion.Proofs.Transfer.Decided
import Triversion.Proofs.Transfer.Maps

/-!
What is merged into a value of fixed structure comes to rest.

Whichever writes are kept, as long as the shape takes each of them, the candidate is accepted part
by part, and every part is written as a value that stays as it is.
-/

namespace Triversion

open Shape

/-- What a shape takes behind a route of the whole is what the shape there takes. -/
def Asks (root : Shape) (path : Path) (shape : Shape) : Prop :=
  ∀ rest v, takes (path ++ rest) root v = takes rest shape v

/-- A field of a record stands at a place of its own. -/
theorem Asks.field {root : Shape} {path : Path} {rule : RecordRule}
    {fields : List (FieldRule × Shape)} (asks : Asks root path (.record rule fields))
    (distinct : (names fields).Nodup) {field : FieldRule × Shape} (member : field ∈ fields) :
    Asks root (path.field field.1.name) field.2 := by
  intro rest v
  rw [Path.field, List.append_assoc, List.singleton_append, asks]
  simp only [takes, Segment.name?, under?_record distinct member]

/--
A merged part of the whole, and a candidate in which every write of the part has been decided.

Whatever is kept is kept for a reason, and apart from all writes the candidate is as merged.
-/
structure Place (root : Shape) (path : Path) (whole : Value) (merged : Merged Value)
    (keeps : Write → Bool) (candidate : Value) : Prop where
  found : whole.at? path = some merged.result
  wellFormed : candidate.WellFormed
  outside : ∀ rest, (∀ write ∈ merged.journal.writes, write.path.Apart (path ++ rest)) →
    candidate.at? (path ++ rest) = merged.result.at? rest
  ends : EndsBy keeps whole merged.journal.writes candidate
  taken : ∀ write ∈ merged.journal.writes, keeps write = true → root.keeps whole write = true

namespace Place

variable {root : Shape} {path : Path} {whole candidate : Value} {keeps : Write → Bool}
  {merged : Merged Value} {exclusions : Exclusions}

/-- Where nothing is written the candidate is as merged. -/
theorem silent (place : Place root path whole merged keeps candidate)
    (silent : merged.journal.writes = []) : candidate.at? path = some merged.result := by
  have same := place.outside [] (by simp [silent])
  rwa [List.append_nil] at same

/-- A part that is written as a whole is as merged, or what the reversal leaves. -/
theorem single (place : Place root path whole merged keeps candidate) {reversal : Reversal}
    (writes : merged.journal.writes = [⟨path, reversal⟩]) :
    candidate.at? path =
      if keeps ⟨path, reversal⟩ then some merged.result else reversal.leaves := by
  rw [← place.found]
  exact place.ends ⟨path, reversal⟩ (by simp [writes])

/-- Whether the write of a whole part is taken is decided by the shape of the part. -/
theorem keeps_single (place : Place root path whole merged keeps candidate) {shape : Shape}
    (asks : Asks root path shape) (reversal : Reversal) :
    root.keeps whole ⟨path, reversal⟩ = (shape.rebuild merged.result).isSome := by
  have same := asks [] merged.result
  rw [List.append_nil] at same
  rw [Shape.keeps, place.found, Option.all_some, same, takes]

section Record

variable {fields given : Fields}

/-- Every write of a field is at the field or behind it. -/
theorem exists_rest {rules : MergeRules} (formedThere : (Value.object fields).WellFormed)
    (formed : (Value.object given).WellFormed) {entry : String × Value}
    (member : entry ∈ takenFields rules path given) {write : Write}
    (written : write ∈ (mergeField rules path (Keyed.get? entry.1 fields) entry.1
      entry.2).journal.writes) : ∃ rest, write.path = path ++ .field entry.1 :: rest := by
  have formedEntry := (Value.wellFormed_object.1 formed).2 entry (mem_takenFields.1 member).1
  have sound : (mergeField rules path (Keyed.get? entry.1 fields) entry.1 entry.2).Sound
      (path.field entry.1) :=
    sound_mergeField formedEntry fun _ held =>
      sound_mergeInto rules formedEntry _ (formedThere.of_get? held)
  obtain ⟨rest, _, route, _⟩ := sound.placed write written
  exact ⟨rest, by rw [route, Path.field, List.append_assoc, List.singleton_append]⟩

theorem writes_mergeObjects {rules : MergeRules} (formed : (Value.object given).WellFormed) :
    (mergeObjects rules path fields given).journal.writes =
      (takenFields rules path given).flatMap fun entry =>
        (mergeField rules path (Keyed.get? entry.1 fields) entry.1 entry.2).journal.writes := by
  rw [journal_mergeObjects _ _ formed.distinct, Journal.writes_all, List.flatMap_map]

/-- What is merged of one field is a part of what is merged of a struct. -/
theorem part (place : Place root path whole
      ((mergeObjects ⟨exclusions, []⟩ path fields given).map .object) keeps candidate)
    (formedThere : (Value.object fields).WellFormed) (formed : (Value.object given).WellFormed)
    {entry : String × Value} (member : entry ∈ takenFields ⟨exclusions, []⟩ path given) :
    Place root (path.field entry.1) whole
      (mergeField ⟨exclusions, []⟩ path (Keyed.get? entry.1 fields) entry.1 entry.2) keeps
      candidate := by
  -- The names that are taken are distinct, so a name finds its own field only.
  have distinct := takenFields_nodup ⟨exclusions, []⟩ path formed.distinct
  have merged : Keyed.get? entry.1 (mergeObjects ⟨exclusions, []⟩ path fields given).result =
      some (mergeField ⟨exclusions, []⟩ path (Keyed.get? entry.1 fields) entry.1
        entry.2).result := by
    rw [get?_mergeObjects _ _ formed.distinct _ (ordinary_of_taken member),
      Keyed.get?_of_mem distinct member]
    rfl
  have listed :
      (mergeField ⟨exclusions, []⟩ path (Keyed.get? entry.1 fields) entry.1
        entry.2).journal.writes ⊆
      (mergeObjects ⟨exclusions, []⟩ path fields given).journal.writes := by
    intro write written
    rw [writes_mergeObjects formed]
    exact List.mem_flatMap.2 ⟨entry, member, written⟩
  refine ⟨?_, place.wellFormed, fun rest apart => ?_,
    fun write written => place.ends write (listed written),
    fun write written => place.taken write (listed written)⟩
  · -- The merged whole holds the merged struct, and the struct holds the field.
    rw [Path.field, Value.at?_append, place.found]
    simp only [Option.bind_some, Value.at?, Value.step?, Merged.map, merged]
  · rw [Path.field, List.append_assoc, List.singleton_append, place.outside]
    · simp only [Merged.map, Value.at?, Value.step?, merged, Option.bind_some]
    · -- The writes of another field part with this one at its name.
      intro write written
      obtain ⟨other, another, written⟩ :=
        List.mem_flatMap.1 ((writes_mergeObjects formed) ▸ written)
      by_cases same : other.1 = entry.1
      · have equal : other = entry := Prod.ext same (Option.some.inj
          ((Keyed.get?_of_mem distinct another).symm.trans
            (same ▸ Keyed.get?_of_mem distinct member)))
        have away := apart write (equal ▸ written)
        rwa [Path.field, List.append_assoc, List.singleton_append] at away
      · obtain ⟨behind, route⟩ := exists_rest formedThere formed another written
        rw [route]
        refine Path.apart_of_bare_ne path (fun equal => same ?_) _ _
        simpa [Segment.bare] using equal

/-- A field that is not taken from the source is as the merge of the struct leaves it. -/
theorem untouched (place : Place root path whole
      ((mergeObjects ⟨exclusions, []⟩ path fields given).map .object) keeps candidate)
    (formedThere : (Value.object fields).WellFormed) (formed : (Value.object given).WellFormed)
    {name : String} (untaken : Keyed.get? name (takenFields ⟨exclusions, []⟩ path given) = none) :
    candidate.at? (path.field name) =
      Keyed.get? name (mergeObjects ⟨exclusions, []⟩ path fields given).result := by
  rw [Path.field, place.outside]
  · simp only [Merged.map, Value.at?, Value.step?, Option.bind_fun_some]
  · -- Every write is behind the name of a field that is taken.
    intro write written
    obtain ⟨other, another, written⟩ := List.mem_flatMap.1 ((writes_mergeObjects formed) ▸ written)
    obtain ⟨behind, route⟩ := exists_rest formedThere formed another written
    rw [route]
    refine Path.apart_of_bare_ne path (fun equal => ?_) _ _
    obtain rfl : other.1 = name := by simpa [Segment.bare] using equal
    exact Keyed.get?_eq_none_iff.1 untaken (List.mem_map.2 ⟨other, another, rfl⟩)

end Record

end Place

section Merge

variable {exclusions : Exclusions} {rules : MergeRules} {path : Path} {there given : Value}
  {fields : Fields}

/-- Over null or a scalar every source value is merged like a scalar. -/
theorem mergeInto_leaf (rules : MergeRules) (path : Path)
    (scalar : there = .null ∨ there.scalarFits there = true) (given : Value) :
    mergeInto rules there path given =
      if given.isNull then clearTo there path else mergeScalar rules there path given := by
  -- The cases are those of the merge: by what is there, and then by the source.
  rcases scalar with rfl | scalar
  · cases given <;> simp [mergeInto, mergeScalar, Value.isNull]
  · cases there with
    | null | array items | object fields => simp [Value.scalarFits] at scalar
    | _ => cases given <;> simp [mergeInto, mergeScalar, Value.isNull, Value.scalarFits]

/-- A leaf is merged into silently, or written as a whole. -/
theorem journal_mergeInto_leaf (rules : MergeRules) (path : Path)
    (scalar : there = .null ∨ there.scalarFits there = true) (given : Value) :
    ((mergeInto rules there path given).journal.writes = [] ∨
      ∃ old, (mergeInto rules there path given).journal.writes = [⟨path, .restore old⟩]) ∧
      (mergeInto rules there path given).journal.maps = [] := by
  rw [mergeInto_leaf rules path scalar, clearTo, mergeScalar]
  split
  · split
    · exact ⟨.inl rfl, rfl⟩
    · exact ⟨.inr ⟨_, rfl⟩, rfl⟩
  · split
    · exact ⟨.inr ⟨_, rfl⟩, rfl⟩
    · split
      · exact ⟨.inr ⟨_, rfl⟩, rfl⟩
      · exact ⟨.inl rfl, rfl⟩

/-- Where no map is known, an object is merged into a struct field by field. -/
theorem mergeInto_struct {given : Fields} (filled : fields ≠ []) :
    mergeInto ⟨exclusions, []⟩ (.object fields) path (.object given) =
      (mergeObjects ⟨exclusions, []⟩ path fields given).map .object := by
  obtain ⟨first, rest, rfl⟩ := List.exists_cons_of_ne_nil filled
  obtain ⟨name, first⟩ := first
  have notMap : isMapAt [] path = false := by simp [isMapAt]
  rw [mergeInto, notMap, if_neg Bool.false_ne_true]
  rfl

/-- Null clears a struct. -/
theorem mergeInto_clears : mergeInto rules (.object fields) path .null =
    ⟨.null, .wrote path (.restore (Value.object fields).blank)⟩ := by
  simp only [mergeInto, clearTo, Value.isNull, Bool.false_eq_true, if_false]

/-- Anything but null or an object is no struct. -/
theorem mergeInto_object (filled : given.isNull = false) (other : given.isObject = false) :
    mergeInto rules (.object fields) path given = rejectAt (.object fields) path given := by
  cases given with
  | null => simp [Value.isNull] at filled
  | object given => simp [Value.isObject] at other
  | array items => cases fields <;> rfl
  | _ => rw [mergeInto]; rfl

/-- A merged list of names is one, and stays as it is. -/
theorem rebuild_mergedList {shape : Shape} (isList : shape.isNameList = true)
    (again : shape.rebuild there = some there) (formed : there.WellFormed) (known : List String)
    (given : Option Value) :
    shape.rebuild (mergedList known given there) = some (mergedList known given there) ∧
      (mergedList known given there).WellFormed := by
  -- Only a list in the source changes anything.
  unfold mergedList
  split
  · next names =>
    obtain ⟨texts, same⟩ := exists_keptNames known names
    rw [same]
    refine ⟨rebuild_strings isList texts, Value.wellFormed_array.2 fun item member => ?_⟩
    obtain ⟨_, _, rfl⟩ := List.mem_map.1 member
    trivial
  · exact ⟨again, formed⟩

end Merge

/-- A part of a candidate that is accepted, and that is written as a value which stays as it is. -/
structure Settles (shape : Shape) (path : Path) (candidate part settled : Value) : Prop where
  stands : candidate.at? path = some part
  rebuilt : shape.rebuild part = some settled
  wellFormed : settled.WellFormed
  again : shape.rebuild settled = some settled

/-- An accepted part of the shape of a leaf settles. -/
theorem settles_of_leaf {shape : Shape} (leaf : shape.isLeaf = true) {path : Path}
    {candidate part : Value} (stands : candidate.at? path = some part)
    (accepted : (shape.rebuild part).isSome = true) :
    ∃ settled, Settles shape path candidate part settled := by
  obtain ⟨settled, rebuilt⟩ := Option.isSome_iff_exists.1 accepted
  obtain ⟨again, _⟩ := rebuild_leaf leaf rebuilt
  refine ⟨settled, stands, rebuilt, ?_, again⟩
  -- Neither null nor a scalar has parts.
  rcases scalarFits_self_of_leaf leaf again with rfl | scalar
  · trivial
  · cases settled <;> trivial

/-- A source value meets a value of fixed structure at a place of the whole. -/
structure Meets (exclusions : Exclusions) (root shape : Shape) (path : Path) (whole : Value)
    (keeps : Write → Bool) (candidate there given : Value) : Prop where
  fixed : shape.everywhere isFixed = true
  kind : (shape.isLeaf || shape.isRecord) = true
  again : shape.rebuild there = some there
  formedThere : there.WellFormed
  formed : given.WellFormed
  asks : Asks root path shape
  place : Place root path whole (mergeInto ⟨exclusions, []⟩ there path given) keeps candidate

namespace Meets

variable {exclusions : Exclusions} {root shape : Shape} {path : Path} {whole candidate : Value}
  {keeps : Write → Bool}

section Part

variable {there given : Value}
  (meets : Meets exclusions root shape path whole keeps candidate there given)

include meets

theorem moulds : shape.Moulds there :=
  moulds_of_rebuild (anchored_of_steady (steady_of_fixed meets.fixed))
    meets.formedThere meets.again

/-- The blank of what is there is accepted. -/
theorem accepts_blank : (shape.rebuild there.blank).isSome = true :=
  rebuild_blank_isSome meets.fixed meets.formedThere meets.moulds

/-- The blank of what is there settles as it is. -/
theorem settles_blank (stands : candidate.at? path = some there.blank) :
    Settles shape path candidate there.blank there.blank := by
  obtain ⟨settled, rebuilt⟩ := Option.isSome_iff_exists.1 meets.accepts_blank
  obtain rfl := eq_of_moulds (steady_of_fixed meets.fixed) meets.formedThere.blank
    meets.moulds.blank rebuilt
  exact ⟨stands, rebuilt, meets.formedThere.blank, rebuilt⟩

/-- Whether the write of the whole part is kept or not, what stands there is accepted. -/
theorem accepted_single {merged : Merged Value}
    (same : mergeInto ⟨exclusions, []⟩ there path given = merged) {old : Value}
    (writes : merged.journal.writes = [⟨path, .restore old⟩])
    (accepted : (shape.rebuild old).isSome = true) :
    ∃ part, candidate.at? path = some part ∧ (shape.rebuild part).isSome = true := by
  have place := same ▸ meets.place
  have stands := place.single writes
  -- What is kept is taken by the root, which asks the shape here.
  cases kept : keeps ⟨path, .restore old⟩ with
  | true =>
    rw [kept, if_pos rfl] at stands
    refine ⟨_, stands, ?_⟩
    rw [← place.keeps_single meets.asks (.restore old)]
    exact place.taken _ (by simp [writes]) kept
  | false =>
    rw [kept, if_neg Bool.false_ne_true] at stands
    exact ⟨old, stands, accepted⟩

/-- What is merged into a leaf settles. -/
theorem settles_leaf (leaf : shape.isLeaf = true) :
    ∃ part settled, Settles shape path candidate part settled := by
  have accepted : (shape.rebuild there).isSome = true := by rw [meets.again, Option.isSome_some]
  suffices ends : ∃ part, candidate.at? path = some part ∧ (shape.rebuild part).isSome = true by
    obtain ⟨part, stands, accepted⟩ := ends
    exact ⟨part, settles_of_leaf leaf stands accepted⟩
  have merged :=
    mergeInto_leaf ⟨exclusions, []⟩ path (scalarFits_self_of_leaf leaf meets.again) given
  rw [clearTo, mergeScalar] at merged
  -- Whatever is taken back leaves null over null, and the blank of a scalar over a scalar.
  split at merged
  · split at merged
    · next null =>
      obtain rfl := Value.isNull_iff.1 null
      exact ⟨_, (merged ▸ meets.place).silent rfl, accepted⟩
    · exact meets.accepted_single merged rfl meets.accepts_blank
  · split at merged
    · next null =>
      obtain rfl := Value.isNull_iff.1 null
      exact meets.accepted_single merged rfl accepted
    · split at merged
      · exact meets.accepted_single merged rfl meets.accepts_blank
      · -- A scalar of another kind is lost at once, without a write.
        exact ⟨_, (merged ▸ meets.place).silent rfl, meets.accepts_blank⟩

end Part

section Record

variable {rule : RecordRule} {declared : List (FieldRule × Shape)} {fields : Fields}

/-- A record is never null, so that clearing it is taken back. -/
theorem cleared (meets : Meets exclusions root (.record rule declared) path whole keeps candidate
      (.object fields) .null) :
    candidate.at? path = some (Value.object fields).blank := by
  have place := mergeInto_clears ▸ meets.place
  -- Kept, the null would have to be accepted as the record.
  have refused : keeps ⟨path, .restore (Value.object fields).blank⟩ = false := by
    refine Bool.eq_false_iff.2 fun kept => ?_
    have taken := place.taken _ List.mem_cons_self kept
    rw [place.keeps_single meets.asks] at taken
    simp [rebuild] at taken
  rw [place.single rfl, refused, if_neg Bool.false_ne_true]
  rfl

/-- A value that is no struct is lost, and the struct is reset. -/
theorem rejected {given : Value}
    (meets : Meets exclusions root (.record rule declared) path whole keeps candidate
      (.object fields) given)
    (filled : given.isNull = false) (other : given.isObject = false) :
    candidate.at? path = some (Value.object fields).blank :=
  (mergeInto_object filled other ▸ meets.place).silent rfl

variable {given : Fields}
  (meets : Meets exclusions root (.record rule declared) path whole keeps candidate
    (.object fields) (.object given))

include meets

theorem writesAll : Shape.writesAll rule declared = true :=
  (isFixed_record.1 (everywhere_record.1 meets.fixed).1).1

theorem distinct : (names declared).Nodup :=
  (writesAll_iff.1 meets.writesAll).2.1

theorem rebuilds : Rebuilds rule declared fields fields := by
  obtain ⟨_, same, _, rebuilds⟩ := rebuilds_of_isFixed meets.fixed meets.again
  exact Value.object.inj same ▸ rebuilds

/-- A struct that is met has fields, so that no map could be mistaken for it. -/
theorem mergeInto_eq : mergeInto ⟨exclusions, []⟩ (.object fields) path (.object given) =
    (mergeObjects ⟨exclusions, []⟩ path fields given).map .object := by
  obtain ⟨_, same, filled, _⟩ := rebuilds_of_isFixed meets.fixed meets.again
  obtain rfl := Value.object.inj same
  exact mergeInto_struct filled

theorem struct : Place root path whole
    ((mergeObjects ⟨exclusions, []⟩ path fields given).map .object) keeps candidate :=
  meets.mergeInto_eq ▸ meets.place

/-- What is taken of the source meets the field of its name. -/
theorem field {field : FieldRule × Shape} (member : field ∈ declared) {old v : Value}
    (held : Keyed.get? field.1.name fields = some old)
    (taken : (field.1.name, v) ∈ takenFields ⟨exclusions, []⟩ path given) :
    Meets exclusions root field.2 (path.field field.1.name) whole keeps candidate old v := by
  obtain ⟨here, inside⟩ := everywhere_record.1 meets.fixed
  obtain ⟨_, _, each⟩ := isFixed_record.1 here
  have ordinary : isBookkeeping field.1.name = false := ordinary_of_taken taken
  -- What is there under a declared name is rebuilt as it is.
  obtain ⟨w, heldToo, same⟩ := meets.rebuilds.get? meets.writesAll member
  obtain rfl := Option.some.inj (heldToo.symm.trans held)
  have part := meets.struct.part meets.formedThere meets.formed taken
  rw [held] at part
  exact {
    fixed := inside field member
    kind := by simpa [isFixedField, ordinary] using each field member
    again := same _ held
    formedThere := meets.formedThere.of_get? held
    formed := (Value.wellFormed_object.1 meets.formed).2 _ (mem_takenFields.1 taken).1
    asks := meets.asks.field meets.distinct member
    place := part }

/-- A field that is not taken from the source settles as it is left. -/
theorem settles_untaken {field : FieldRule × Shape} (member : field ∈ declared) {old : Value}
    (held : Keyed.get? field.1.name fields = some old)
    (untaken : Keyed.get? field.1.name (takenFields ⟨exclusions, []⟩ path given) = none) :
    Settles field.2 (path.field field.1.name) candidate
      (leftField fields given field.1.name old) (leftField fields given field.1.name old) := by
  obtain ⟨_, _, each⟩ := isFixed_record.1 (everywhere_record.1 meets.fixed).1
  obtain ⟨w, heldToo, again⟩ := meets.rebuilds.get? meets.writesAll member
  obtain rfl := Option.some.inj (heldToo.symm.trans held)
  have stands := meets.struct.untouched meets.formedThere meets.formed untaken
  unfold leftField
  cases ordinary : isBookkeeping field.1.name with
  | true =>
    have isList : field.2.isNameList = true := by
      simpa [isFixedField, ordinary] using each field member
    rw [get?_mergeObjects_list meets.formed.distinct ordinary, held, Option.map_some] at stands
    obtain ⟨same, formedList⟩ := rebuild_mergedList isList (again _ held)
      (meets.formedThere.of_get? held) (fields.map (·.1)) (Keyed.get? field.1.name given)
    exact ⟨stands, same, formedList, same⟩
  | false =>
    rw [get?_mergeObjects _ _ meets.formed.distinct _ ordinary, untaken, held] at stands
    exact ⟨stands, again _ held, meets.formedThere.of_get? held, again _ held⟩

/-- Every declared field settles if those that are taken from the source do. -/
theorem settles_fields
    (each : ∀ field ∈ declared, ∀ old v,
      Meets exclusions root field.2 (path.field field.1.name) whole keeps candidate old v →
      ∃ part settled, Settles field.2 (path.field field.1.name) candidate part settled) :
    ∀ field ∈ declared, ∃ part settled,
      Settles field.2 (path.field field.1.name) candidate part settled := by
  intro field member
  obtain ⟨old, held, _⟩ := meets.rebuilds.get? meets.writesAll member
  cases taken : Keyed.get? field.1.name (takenFields ⟨exclusions, []⟩ path given) with
  | some v => exact each field member old v (meets.field member held (Keyed.mem_of_get? taken))
  | none => exact ⟨_, _, meets.settles_untaken member held taken⟩

/-- Whether the write of an undeclared field is taken is up to the record. -/
theorem keeps_undeclared {name : String} (unknown : name ∉ names declared) {v : Value}
    (found : whole.at? (path.field name) = some v) (reversal : Reversal) :
    root.keeps whole ⟨path.field name, reversal⟩ = decide (rule.unknown = .ignored) := by
  -- Names that are declared are the only ones that lead anywhere.
  have missing : (Shape.record rule declared).under? name = none := by
    refine Option.eq_none_iff_forall_ne_some.2 fun inner found => unknown ?_
    obtain ⟨field, member, rfl, _⟩ := exists_field_of_under? found
    exact List.mem_map.2 ⟨field, member, rfl⟩
  rw [Shape.keeps, found, Option.all_some, Path.field, meets.asks]
  simp only [takes, Segment.name?, missing]

/-- An undeclared field of the source is a part of its own, taken as it is. -/
theorem undeclared {name : String} (unknown : name ∉ names declared) {v : Value}
    (taken : Keyed.get? name (takenFields ⟨exclusions, []⟩ path given) = some v) :
    Place root (path.field name) whole (mergeField ⟨exclusions, []⟩ path none name v) keeps
      candidate := by
  have part := meets.struct.part meets.formedThere meets.formed (Keyed.mem_of_get? taken)
  rwa [meets.rebuilds.declared name unknown] at part

/-- An undeclared field is there only if the source has it, and the write of it is kept. -/
theorem at?_undeclared {name : String} (unknown : name ∉ names declared) :
    candidate.at? (path.field name) =
      (Keyed.get? name (takenFields ⟨exclusions, []⟩ path given)).bind fun v =>
        if keeps ⟨path.field name, .remove⟩ then some (exclusions.strip (path.field name) v)
        else none := by
  have missing := meets.rebuilds.declared name unknown
  cases taken : Keyed.get? name (takenFields ⟨exclusions, []⟩ path given) with
  | some v => exact (meets.undeclared unknown taken).single rfl
  | none =>
    rw [meets.struct.untouched meets.formedThere meets.formed taken, Option.bind_none]
    cases ordinary : isBookkeeping name with
    | true => rw [get?_mergeObjects_list meets.formed.distinct ordinary, missing, Option.map_none]
    | false => rw [get?_mergeObjects _ _ meets.formed.distinct _ ordinary, taken, missing]; rfl

/-- Where the fields of a record settle there is an object. -/
theorem exists_object
    (each : ∀ field ∈ declared, ∃ part settled,
      Settles field.2 (path.field field.1.name) candidate part settled) :
    ∃ kept, candidate.at? path = some (.object kept) := by
  -- A record of fixed structure has some field, and a field stands in an object.
  obtain ⟨_, filled, _⟩ := isFixed_record.1 (everywhere_record.1 meets.fixed).1
  obtain ⟨field, rest, rfl⟩ := List.exists_cons_of_ne_nil filled
  obtain ⟨part, _, settles⟩ := each field List.mem_cons_self
  have stands := settles.stands
  rw [Path.field, Value.at?_append] at stands
  obtain ⟨v, here, later⟩ := Option.bind_eq_some_iff.1 stands
  cases v with
  | object kept => exact ⟨kept, here⟩
  | _ => simp [Value.at?, Value.step?] at later

omit meets in
/-- What stands under a name of an object stands at its place. -/
theorem at?_field {v : Value} {kept : Fields} (here : v.at? path = some (.object kept))
    (name : String) : v.at? (path.field name) = Keyed.get? name kept := by
  rw [Path.field, Value.at?_append, here, Option.bind_some]
  simp only [Value.at?, Value.step?, Option.bind_fun_some]

/-- A record accepts the object that its fields settle in. -/
theorem accepted_object {kept : Fields} (stands : candidate.at? path = some (.object kept))
    (each : ∀ field ∈ declared, ∃ part settled,
      Settles field.2 (path.field field.1.name) candidate part settled) :
    ((Shape.record rule declared).rebuild (.object kept)).isSome = true := by
  have written := (writesAll_iff.1 meets.writesAll).2.2
  refine (rebuild_record_isSome meets.distinct).2 ⟨fun rejects => ?_, fun field member => ?_⟩
  · refine (undeclared_eq_nil_iff fun field member => (written field member).2).2
      fun name listed => Classical.not_not.1 fun unknown => ?_
    -- A record that rejects unknown names takes no write of one.
    have found := meets.at?_undeclared unknown
    rw [at?_field stands] at found
    refine Keyed.get?_eq_none_iff.1 (found.trans (Option.bind_eq_none_iff.2 fun v taken => ?_))
      listed
    have part := meets.undeclared unknown taken
    refine if_neg fun isKept => ?_
    have takes := part.taken _ List.mem_cons_self isKept
    rw [meets.keeps_undeclared unknown part.found, rejects] at takes
    simp at takes
  · obtain ⟨part, settled, settles⟩ := each field member
    have held := (at?_field stands field.1.name).symm.trans settles.stands
    rw [declaredValue, (written field member).2]
    simp only [held, settles.rebuilt, Option.isSome_some]

/-- A struct settles if its fields do, and holds what they settle as. -/
theorem settles_object
    (each : ∀ field ∈ declared, ∃ part settled,
      Settles field.2 (path.field field.1.name) candidate part settled) :
    ∃ kept settled, Settles (.record rule declared) path candidate (.object kept)
        (.object settled) ∧
      ∀ field ∈ declared, ∃ part v, Keyed.get? field.1.name settled = some v ∧
        Settles field.2 (path.field field.1.name) candidate part v := by
  obtain ⟨forgets, distinct, _⟩ := writesAll_iff.1 meets.writesAll
  obtain ⟨kept, stands⟩ := meets.exists_object each
  obtain ⟨w, rebuilt⟩ := Option.isSome_iff_exists.1 (meets.accepted_object stands each)
  obtain ⟨settled, rfl, rebuilds⟩ := (rebuild_object_iff forgets distinct).1 rebuilt
  -- What is written under a name is what the part under this name settles as.
  have eachSettled : ∀ field ∈ declared, ∃ part v, Keyed.get? field.1.name settled = some v ∧
      Settles field.2 (path.field field.1.name) candidate part v := by
    intro field member
    obtain ⟨part, settledField, settles⟩ := each field member
    have held := (at?_field stands field.1.name).symm.trans settles.stands
    obtain ⟨v, standsToo, taken⟩ := rebuilds.get? meets.writesAll member
    obtain rfl := Option.some.inj ((taken part held).symm.trans settles.rebuilt)
    exact ⟨part, v, standsToo, settles⟩
  -- So each field is rebuilt as it is, and with the fields the struct.
  have again : Rebuilds rule declared settled settled := by
    refine rebuilds.again meets.writesAll fun field member v held => ?_
    obtain ⟨_, w, heldToo, settles⟩ := eachSettled field member
    exact Option.some.inj (heldToo.symm.trans held) ▸ settles.again
  refine ⟨kept, settled, ⟨stands, rebuilt, ?_, (rebuild_object_iff forgets distinct).2
    ⟨settled, rfl, again⟩⟩, eachSettled⟩
  refine Value.wellFormed_of_get? rebuilds.sorted fun name v held => ?_
  obtain ⟨field, member, rfl, _⟩ := again.field_of_get? (writesAll.readsAll meets.writesAll) held
  obtain ⟨_, w, heldToo, settles⟩ := eachSettled field member
  exact Option.some.inj (heldToo.symm.trans held) ▸ settles.wellFormed

end Record

/--
What is merged into a value of fixed structure settles.

The induction follows the shape, since a field of a record meets its own part of the source.
-/
theorem settles {there given : Value}
    (meets : Meets exclusions root shape path whole keeps candidate there given) :
    ∃ part settled, Settles shape path candidate part settled := by
  induction shape using inductionOn generalizing path there given with
  | record rule declared ih =>
    obtain ⟨fields, rfl, _⟩ := rebuilds_of_isFixed meets.fixed meets.again
    -- Null and everything that is no object reset the record.
    cases given with
    | null => exact ⟨_, _, meets.settles_blank meets.cleared⟩
    | object given =>
      obtain ⟨kept, settled, settles, _⟩ := meets.settles_object
        (meets.settles_fields fun field member _ _ part => ih field member part)
      exact ⟨_, _, settles⟩
    | _ => exact ⟨_, _, meets.settles_blank (meets.rejected rfl rfl)⟩
  | bool | string | integer low high | float | optional shape =>
    exact meets.settles_leaf (by simpa [isRecord] using meets.kind)
  | _ =>
    have kind := meets.kind
    simp [isLeaf, isPlain, isRecord] at kind

end Meets

end Triversion
