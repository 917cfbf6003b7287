import Mathlib.Data.List.Perm.Basic
import Triversion.Proofs.Transfer.Forgotten
import Triversion.Proofs.Transfer.Idempotence

/-!
Copies into flat structs, field by field.

The fields of a flat struct are scalars, some of which may be null, and lists of names. Whatever
the source holds, and whatever is refused of it, each field ends as it would on its own.
-/

namespace Triversion

open Shape

namespace Shape

/-- Whether a record ignores unknown names and writes all its fields, which are leaves or lists. -/
def isFlat (rule : RecordRule) (declared : List (FieldRule × Shape)) : Bool :=
  writesAll rule declared && rule.unknown = .ignored && declared.all fun field =>
    if isBookkeeping field.1.name then field.2.isNameList else field.2.isLeaf

/-- Whether null is a value of the shape beside others. -/
def isOptional : Shape → Bool
  | .optional _ => true
  | _ => false

/-- The zero of a leaf, which is not null. -/
def zero : Shape → Value
  | .optional shape => shape.initial
  | shape => shape.initial

/-- What a leaf holds after a copy of what the source has for it, if anything. -/
def copied (shape : Shape) (old : Value) : Option Value → Value
  | none => old
  | some given =>
    if given.isNull then if shape.isOptional then .null else shape.zero
    else
      match shape.rebuild given with
      | some stored => stored
      -- A refused value resets the leaf, unless the leaf was null.
      | none => if old.isNull then .null else shape.zero

/-- The shape that is declared under a name. -/
def declared? (declared : List (FieldRule × Shape)) (name : String) : Option Shape :=
  (declared.find? fun field => field.1.name = name).map (·.2)

end Shape

/-- What a field of a flat struct holds after a copy of the fields of a source. -/
def copiedField (declared : List (FieldRule × Shape)) (given : Fields) (name : String)
    (old : Value) : Value :=
  match declared? declared name with
  | none => old
  | some shape =>
    -- Of a list in the source the names of ordinary fields are taken.
    if isBookkeeping name then mergedList (names declared) (Keyed.get? name given) old
    else shape.copied old (Keyed.get? name given)

/-- What is lost of one source field when it is copied into a flat struct. -/
def lostField (declared : List (FieldRule × Shape)) (entry : String × Value) : List Loss :=
  if isBookkeeping entry.1 then []
  else
    match declared? declared entry.1 with
    | none => lossOf (Path.root.field entry.1) entry.2
    | some shape =>
      if (shape.rebuild entry.2).isSome then [] else lossOf (Path.root.field entry.1) entry.2

/-- What a filter leaves out can be left in where nothing comes of it. -/
theorem flatMap_filter {α β : Type} {chosen : α → Bool} {f : α → List β} {items : List α}
    (silent : ∀ a ∈ items, chosen a = false → f a = []) :
    (items.filter chosen).flatMap f = items.flatMap f := by
  induction items with
  | nil => rfl
  | cons a rest ih =>
    obtain ⟨here, later⟩ := List.forall_mem_cons.1 silent
    cases kept : chosen a with
    | true => rw [List.filter_cons_of_pos kept, List.flatMap_cons, List.flatMap_cons, ih later]
    | false =>
      rw [List.filter_cons_of_neg (Bool.eq_false_iff.1 kept), List.flatMap_cons, here kept,
        List.nil_append, ih later]

namespace Shape

section Leaf

variable {shape : Shape} {old given stored : Value}

/-- A plain scalar takes over what the shape accepts, and is reset to the zero of the shape. -/
theorem plain_again (plain : shape.isPlain = true) (again : shape.rebuild old = some old) :
    old.isNull = false ∧ old.blank = shape.initial ∧
      ∀ given stored, shape.rebuild given = some stored → old.scalarFits given = true := by
  -- What is there is of the kind of the shape, and so is what is accepted.
  cases rebuildsPlain plain again with
  | _ => exact ⟨rfl, rfl, fun given stored rebuilt => by cases rebuildsPlain plain rebuilt <;> rfl⟩

/-- A plain scalar is never null, and has a zero of its own. -/
theorem plain_null (plain : shape.isPlain = true) :
    shape.rebuild .null = none ∧ shape.isOptional = false ∧ shape.zero = shape.initial := by
  cases shape <;> simp [isPlain] at plain <;> exact ⟨rfl, rfl, rfl⟩

/-- A leaf is null, or takes over what is accepted and is reset to its zero. -/
theorem leaf_again (leaf : shape.isLeaf = true) (again : shape.rebuild old = some old) :
    old = .null ∨ old.isNull = false ∧ old.blank = shape.zero ∧
      ∀ given stored, shape.rebuild given = some stored → given.isNull = false →
        old.scalarFits given = true := by
  rcases isLeaf.cases leaf with plain | ⟨inner, rfl, plain⟩
  · obtain ⟨filled, blank, fits⟩ := plain_again plain again
    rw [← (plain_null plain).2.2] at blank
    exact .inr ⟨filled, blank, fun given stored rebuilt _ => fits given stored rebuilt⟩
  · cases filled : old.isNull with
    | true => exact .inl (Value.isNull_iff.1 filled)
    | false =>
      -- Beside null, an optional scalar is what the scalar is.
      rw [rebuild, filled, if_neg Bool.false_ne_true] at again
      obtain ⟨_, blank, fits⟩ := plain_again plain again
      refine .inr ⟨rfl, blank, fun given stored rebuilt filledGiven => fits given stored ?_⟩
      rwa [rebuild, filledGiven, if_neg Bool.false_ne_true] at rebuilt

/-- A leaf ends as what is accepted is stored as, and is reset by what is refused. -/
theorem copied_eq (leaf : shape.isLeaf = true) (again : shape.rebuild old = some old)
    (given : Value) : shape.copied old (some given) = (shape.rebuild given).getD old.blank := by
  have reset : old.blank = if old.isNull then .null else shape.zero := by
    rcases leaf_again leaf again with rfl | ⟨filled, blank, _⟩
    · rfl
    · rw [filled, blank, if_neg Bool.false_ne_true]
  rw [copied]
  cases null : given.isNull with
  | true =>
    obtain rfl := Value.isNull_iff.1 null
    rcases isLeaf.cases leaf with plain | ⟨inner, rfl, _⟩
    · -- A plain scalar refuses null, and is not null itself.
      obtain ⟨refused, mandatory, zero⟩ := plain_null plain
      rw [refused, mandatory, Option.getD_none, (plain_again plain again).2.1, zero]
      rfl
    · rfl
  | false =>
    rw [if_neg Bool.false_ne_true, reset]
    cases shape.rebuild given <;> rfl

/-- Into a leaf nothing is merged over null, a value is written, or a refused value is lost. -/
theorem mergeInto_leaf_cases (leaf : shape.isLeaf = true) (again : shape.rebuild old = some old)
    (path : Path) (given : Value) :
    (given = .null ∧ old = .null ∧ mergeInto ⟨.none, []⟩ old path given = ⟨.null, .empty⟩) ∨
      mergeInto ⟨.none, []⟩ old path given = ⟨given, .wrote path (.restore old.blank)⟩ ∨
      (shape.rebuild given = none ∧
        mergeInto ⟨.none, []⟩ old path given = ⟨old.blank, .lost path given⟩) := by
  rw [mergeInto_leaf _ path (scalarFits_self_of_leaf leaf again), clearTo, mergeScalar, takeWhole,
    rejectAt, Exclusions.strip_none]
  cases null : given.isNull with
  | true =>
    obtain rfl := Value.isNull_iff.1 null
    cases filled : old.isNull with
    | true => exact .inl ⟨rfl, Value.isNull_iff.1 filled, by simp⟩
    | false => exact .inr (.inl (by simp))
  | false =>
    rcases leaf_again leaf again with rfl | ⟨filled, _, takesOver⟩
    · exact .inr (.inl rfl)
    · cases fits : old.scalarFits given with
      | true => exact .inr (.inl (by simp [filled]))
      | false =>
        refine .inr (.inr ⟨Option.eq_none_iff_forall_ne_some.2 fun stored rebuilt => ?_,
          by simp [filled]⟩)
        -- What is accepted could have been copied over.
        rw [takesOver given stored rebuilt null] at fits
        contradiction

/-- Nothing inside a leaf is compared with what it is rebuilt as. -/
theorem forgotten_leaf (leaf : shape.isLeaf = true) (rebuilt : shape.rebuild given = some stored)
    (maps : List Path) (path : Path) : forgotten maps stored path given = [] := by
  rcases (rebuild_leaf leaf rebuilt).2 with ⟨rfl, _⟩ | fits
  · simp [forgotten]
  · cases given with
    | array items | object fields => cases stored <;> simp [Value.scalarFits] at fits
    | _ => simp [forgotten]

end Leaf

end Shape

namespace Meets

variable {root shape : Shape} {path : Path} {whole candidate there given part settled : Value}
  (meets : Meets .none root shape path whole (root.keeps whole) candidate there given)
  (leaf : shape.isLeaf = true)

include meets leaf

/-- A leaf settles as what is accepted is stored, and otherwise as it is reset. -/
theorem settles_leaf_eq (settles : Settles shape path candidate part settled) :
    settled = (shape.rebuild given).getD there.blank := by
  have place := meets.place
  rcases mergeInto_leaf_cases leaf meets.again path given with
    ⟨rfl, rfl, merged⟩ | merged | ⟨refused, merged⟩
  · rw [merged] at place
    obtain rfl := Option.some.inj (settles.stands.symm.trans (place.silent rfl))
    rw [settles.rebuilt, Option.getD_some]
  · rw [merged] at place
    have stands := place.single rfl
    rw [place.keeps_single meets.asks] at stands
    cases rebuilt : shape.rebuild given with
    | none =>
      rw [rebuilt, Option.isSome_none, if_neg Bool.false_ne_true] at stands
      exact settles.eq (meets.settles_blank stands)
    | some stored =>
      rw [rebuilt, Option.isSome_some, if_pos rfl] at stands
      obtain rfl := Option.some.inj (settles.stands.symm.trans stands)
      exact Option.some.inj (settles.rebuilt.symm.trans rebuilt)
  · rw [merged] at place
    rw [refused]
    exact settles.eq (meets.settles_blank (place.silent rfl))

/-- A leaf loses what the shape refuses, at once or as a write. -/
theorem lost_leaf :
    (mergeInto ⟨.none, []⟩ there path given).journal.losses ++
        refusals root whole (mergeInto ⟨.none, []⟩ there path given).journal.writes =
      if (shape.rebuild given).isSome then [] else lossOf path given := by
  have place := meets.place
  rcases mergeInto_leaf_cases leaf meets.again path given with
    ⟨rfl, rfl, merged⟩ | merged | ⟨refused, merged⟩
  · rw [merged, meets.again]
    rfl
  · rw [merged] at place ⊢
    have kept := place.keeps_single meets.asks (.restore there.blank)
    simp only [Journal.wrote, refusals, List.flatMap_cons, List.flatMap_nil, List.append_nil,
      List.nil_append, kept, place.found, Option.elim_some]
  · rw [merged, refused]
    simp [Journal.lost, refusals]

end Meets

namespace Shape

section Flat

variable {rule : RecordRule} {declared : List (FieldRule × Shape)}

theorem isFlat_iff : isFlat rule declared = true ↔
    writesAll rule declared = true ∧ rule.unknown = .ignored ∧ ∀ field ∈ declared,
      (if isBookkeeping field.1.name then field.2.isNameList else field.2.isLeaf) = true := by
  simp [isFlat, and_assoc]

/-- A plain scalar has no parts. -/
theorem everywhere_of_plain {shape : Shape} (plain : shape.isPlain = true) :
    shape.everywhere isFixed = true := by
  cases shape with
  | integer low high => simpa [everywhere, isFixed, isLeaf] using .inl plain
  | _ => simp_all [isPlain, everywhere, isFixed, isLeaf]

/-- Neither a leaf nor a list of names has parts that vary. -/
theorem everywhere_of_field {shape : Shape}
    (kind : shape.isLeaf = true ∨ shape.isNameList = true) : shape.everywhere isFixed = true := by
  rcases kind with leaf | isList
  · rcases isLeaf.cases leaf with plain | ⟨inner, rfl, plain⟩
    · exact everywhere_of_plain plain
    · exact everywhere_optional.2 ⟨by simp [isFixed, leaf], everywhere_of_plain plain⟩
  · unfold isNameList at isList
    split at isList
    · rfl
    · simp at isList

/-- A flat struct that has fields is of fixed structure. -/
theorem fixed_of_flat (flat : isFlat rule declared = true) (filled : declared ≠ []) :
    (Shape.record rule declared).everywhere isFixed = true := by
  obtain ⟨all, _, each⟩ := isFlat_iff.1 flat
  refine everywhere_record.2 ⟨isFixed_record.2 ⟨all, filled, fun field member => ?_⟩,
    fun field member => everywhere_of_field ?_⟩
  · have kind := each field member
    unfold isFixedField
    cases listed : isBookkeeping field.1.name <;> simp_all
  · have kind := each field member
    split at kind
    · exact .inr kind
    · exact .inl kind

/-- Under the name of a field its shape is declared. -/
theorem declared?_of_mem (distinct : (names declared).Nodup) {field : FieldRule × Shape}
    (member : field ∈ declared) : declared? declared field.1.name = some field.2 :=
  @under?_record ⟨.ignored, .initial, true⟩ declared distinct field member

/-- Under any other name nothing is declared. -/
theorem declared?_of_unknown {name : String} (unknown : name ∉ names declared) :
    declared? declared name = none := by
  rw [declared?, Option.map_eq_none_iff, List.find?_eq_none]
  intro field member
  simpa using fun same => unknown (List.mem_map.2 ⟨field, member, same⟩)

end Flat

end Shape

section Losses

variable {declared : List (FieldRule × Shape)}

/-- Of a source field that nothing declares as ordinary, a flat struct loses the whole. -/
theorem lostField_of_undeclared {entry : String × Value} (unknown : entry.1 ∉ names declared) :
    lostField declared entry =
      if isBookkeeping entry.1 then [] else lossOf (Path.root.field entry.1) entry.2 := by
  rw [lostField, declared?_of_unknown unknown]

/-- The fields that a merge leaves aside are no loss. -/
theorem flatMap_lostField (given : Fields) :
    (takenFields ⟨.none, []⟩ Path.root given).flatMap (lostField declared) =
      given.flatMap (lostField declared) := by
  refine flatMap_filter fun entry _ left => ?_
  rw [skips_none, Bool.not_eq_false'] at left
  rw [lostField, left, if_pos rfl]

/-- What is forgotten of a candidate is what nothing declares, if the declared fields are kept. -/
theorem forgotten_eq (maps : List Path) {kept settled : Fields}
    (unknown : ∀ name, name ∉ names declared → Keyed.get? name settled = none)
    (inside : ∀ entry ∈ kept, isBookkeeping entry.1 = false → entry.1 ∈ names declared →
      ∃ v, Keyed.get? entry.1 settled = some v ∧ ∀ path, forgotten maps v path entry.2 = []) :
    forgotten maps (.object settled) Path.root (.object kept) = kept.flatMap fun entry =>
      if entry.1 ∈ names declared then [] else lostField declared entry := by
  rw [forgotten, forgottenInFields_eq]
  refine List.flatMap_congr fun entry member => ?_
  by_cases known : entry.1 ∈ names declared
  · cases ordinary : isBookkeeping entry.1 with
    | true => rw [if_pos rfl, if_pos known]
    | false =>
      obtain ⟨v, held, none⟩ := inside entry member ordinary known
      simp only [held, none, known, if_true, ite_self]
  · rw [lostField_of_undeclared known, if_neg known]
    simp only [unknown _ known]
    rfl

end Losses

namespace Meets

variable {root : Shape} {whole candidate : Value} {rule : RecordRule}
  {declared : List (FieldRule × Shape)} {fields given settled : Fields}
  (meets : Meets .none root (.record rule declared) Path.root whole (root.keeps whole) candidate
    (.object fields) (.object given))
  (flat : isFlat rule declared = true)

include meets flat

/-- A declared field settles as it would on its own. -/
theorem copiedField_eq {field : FieldRule × Shape} (member : field ∈ declared) {old part v : Value}
    (held : Keyed.get? field.1.name fields = some old)
    (settles : Settles field.2 (Path.root.field field.1.name) candidate part v) :
    v = copiedField declared given field.1.name old := by
  have kind := (isFlat_iff.1 flat).2.2 field member
  have taken := get?_takenFields ⟨.none, []⟩ Path.root given field.1.name
  rw [skips_none] at taken
  rw [copiedField, declared?_of_mem meets.distinct member]
  cases listed : isBookkeeping field.1.name with
  | true =>
    -- The names that are known are those that are declared.
    rw [listed, if_pos rfl] at taken
    rw [settles.eq (meets.settles_untaken member held taken), leftField, listed, if_pos rfl]
    exact mergedList_congr (fun name => meets.rebuilds.mem_names meets.writesAll) _ old
  | false =>
    rw [listed, if_neg Bool.false_ne_true] at taken kind
    simp only [if_neg Bool.false_ne_true]
    cases found : Keyed.get? field.1.name given with
    | none =>
      rw [found] at taken
      rw [settles.eq (meets.settles_untaken member held taken), leftField, listed,
        if_neg Bool.false_ne_true, copied]
    | some v =>
      rw [found] at taken
      have part := meets.field member held (Keyed.mem_of_get? taken)
      rw [part.settles_leaf_eq kind settles, copied_eq kind part.again]

/-- A flat struct settles field by field. -/
theorem settled_eq (sorted : Keyed.Ascending settled)
    (unknown : ∀ name, name ∉ names declared → Keyed.get? name settled = none)
    (each : ∀ field ∈ declared, ∃ part v, Keyed.get? field.1.name settled = some v ∧
      Settles field.2 (Path.root.field field.1.name) candidate part v) :
    settled = fields.map fun entry => (entry.1, copiedField declared given entry.1 entry.2) := by
  refine sorted.ext (Keyed.ascending_map _ (Value.wellFormed_object.1 meets.formedThere).1)
    fun name => ?_
  rw [Keyed.get?_map]
  by_cases known : name ∈ names declared
  · obtain ⟨field, member, rfl⟩ := List.mem_map.1 known
    obtain ⟨old, held, _⟩ := meets.rebuilds.get? meets.writesAll member
    obtain ⟨part, v, stands, settles⟩ := each field member
    rw [stands, held, Option.map_some, meets.copiedField_eq flat member held settles]
  · rw [unknown name known, meets.rebuilds.declared name known, Option.map_none]

/-- What is lost of a taken field before the rebuild is lost of a declared one. -/
theorem lost_of_taken {entry : String × Value}
    (taken : entry ∈ takenFields ⟨.none, []⟩ Path.root given) :
    (mergeField ⟨.none, []⟩ Path.root (Keyed.get? entry.1 fields) entry.1 entry.2).journal.losses ++
        refusals root whole (mergeField ⟨.none, []⟩ Path.root (Keyed.get? entry.1 fields) entry.1
          entry.2).journal.writes =
      if entry.1 ∈ names declared then lostField declared entry else [] := by
  obtain ⟨name, v⟩ := entry
  have ordinary : isBookkeeping name = false := ordinary_of_taken taken
  by_cases known : name ∈ names declared
  · obtain ⟨field, member, rfl⟩ := List.mem_map.1 known
    obtain ⟨old, held, _⟩ := meets.rebuilds.get? meets.writesAll member
    have leaf := (isFlat_iff.1 flat).2.2 field member
    rw [ordinary, if_neg Bool.false_ne_true] at leaf
    have lost := (meets.field member held taken).lost_leaf leaf
    simp only [held, mergeField, lost, if_pos known, lostField, ordinary,
      declared?_of_mem meets.distinct member, Bool.false_eq_true, if_false]
  · -- The write of an unknown field is never refused.
    have listed := Keyed.get?_of_mem (takenFields_nodup _ _ meets.formed.distinct) taken
    have kept := meets.keeps_undeclared known (meets.undeclared known listed).found .remove
    rw [decide_eq_true (isFlat_iff.1 flat).2.1] at kept
    simp [meets.rebuilds.declared name known, mergeField, Journal.wrote, refusals, kept, known]

/-- The fields that nothing declares stand in the candidate as the source has them. -/
theorem filter_undeclared {kept : Fields}
    (stands : candidate.at? Path.root = some (.object kept)) :
    kept.filter (fun entry => !decide (entry.1 ∈ names declared)) =
      (takenFields ⟨.none, []⟩ Path.root given).filter
        fun entry => !decide (entry.1 ∈ names declared) := by
  have sorted := (Value.wellFormed_object.1 (meets.place.wellFormed.at? stands)).1
  have sortedTaken : Keyed.Ascending (takenFields ⟨.none, []⟩ Path.root given) :=
    (Value.wellFormed_object.1 meets.formed).1.sublist List.filter_sublist
  refine Keyed.Ascending.ext (sorted.sublist List.filter_sublist)
    (sortedTaken.sublist List.filter_sublist) fun name => ?_
  rw [Keyed.get?_filter fun name => !decide (name ∈ names declared),
    Keyed.get?_filter fun name => !decide (name ∈ names declared)]
  by_cases known : name ∈ names declared
  · simp [known]
  · -- A struct that ignores unknown names takes every write of one.
    rw [← at?_field stands, meets.at?_undeclared known]
    cases taken : Keyed.get? name (takenFields ⟨.none, []⟩ Path.root given) with
    | none => rfl
    | some v =>
      have kept := meets.keeps_undeclared known (meets.undeclared known taken).found .remove
      rw [Option.bind_some, kept, decide_eq_true (isFlat_iff.1 flat).2.1, if_pos rfl,
        Exclusions.strip_none]

section Settled

variable {kept : Fields} (stands : candidate.at? Path.root = some (.object kept))
  (unknown : ∀ name, name ∉ names declared → Keyed.get? name settled = none)
  (each : ∀ field ∈ declared, ∃ part v, Keyed.get? field.1.name settled = some v ∧
    Settles field.2 (Path.root.field field.1.name) candidate part v)

include stands unknown each

/-- What is forgotten of the candidate is what was taken without being declared. -/
theorem forgotten_taken : forgotten [] (.object settled) Path.root (.object kept) =
    (takenFields ⟨.none, []⟩ Path.root given).flatMap fun entry =>
      if entry.1 ∈ names declared then [] else lostField declared entry := by
  have silent : ∀ others : Fields, ∀ entry ∈ others, (!decide (entry.1 ∈ names declared)) = false →
      (if entry.1 ∈ names declared then [] else lostField declared entry) = [] := by
    simp_all
  rw [forgotten_eq [] unknown fun entry member ordinary known => ?_]
  · rw [← flatMap_filter (silent kept), meets.filter_undeclared flat stands,
      flatMap_filter (silent _)]
  · -- A declared field stands as a leaf.
    obtain ⟨field, declares, named⟩ := List.mem_map.1 known
    obtain ⟨part, v, held, settles⟩ := each field declares
    have leaf := (isFlat_iff.1 flat).2.2 field declares
    rw [named] at held settles leaf
    rw [ordinary, if_neg Bool.false_ne_true] at leaf
    have same := settles.stands
    rw [at?_field stands,
      Keyed.get?_of_mem (meets.place.wellFormed.at? stands).distinct member] at same
    obtain rfl := Option.some.inj same
    exact ⟨v, held, forgotten_leaf leaf settles.rebuilt []⟩

/-- What is lost on the way and what is forgotten in the end is lost field by field. -/
theorem losses_perm :
    ((mergeInto ⟨.none, []⟩ (.object fields) Path.root (.object given)).journal.losses ++
        refusals root whole
          (mergeInto ⟨.none, []⟩ (.object fields) Path.root (.object given)).journal.writes ++
        forgotten [] (.object settled) Path.root (.object kept)).Perm
      (given.flatMap (lostField declared)) := by
  rw [meets.forgotten_taken flat stands unknown each, meets.mergeInto_eq]
  simp only [Merged.map, journal_mergeObjects _ _ meets.formed.distinct, Journal.losses_all,
    Journal.writes_all, List.flatMap_map, refusals_flatMap]
  -- Field by field, one of the three lists has what is lost.
  refine ((List.flatMap_append_perm _ _ _).append_right _).trans
    ((List.flatMap_append_perm _ _ _).trans (.of_eq ?_))
  rw [← flatMap_lostField]
  refine List.flatMap_congr fun entry taken => ?_
  rw [meets.lost_of_taken flat taken]
  split
  · rw [List.append_nil]
  · rw [List.nil_append]

end Settled

end Meets

namespace Transfer

variable {σ δ : Type} {codec : Codec δ} {rule : RecordRule}
  {declared : List (FieldRule × Shape)} {fields given : Fields} {source : Codec σ} {src : σ}
  {dest : δ}

/-- Merged into no fields, the source fields that are taken stand as they are. -/
theorem mergeObjects_nil (formed : (Value.object given).WellFormed) :
    (mergeObjects ⟨.none, []⟩ Path.root [] given).result =
        takenFields ⟨.none, []⟩ Path.root given ∧
      (mergeObjects ⟨.none, []⟩ Path.root [] given).journal.losses = [] := by
  constructor
  · refine (ascending_mergeObjects _ _ given .nil).ext
      ((Value.wellFormed_object.1 formed).1.sublist List.filter_sublist) fun name => ?_
    cases ordinary : isBookkeeping name with
    | true =>
      rw [get?_mergeObjects_list formed.distinct ordinary, get?_takenFields, skips_none, ordinary]
      rfl
    | false =>
      rw [get?_mergeObjects _ _ formed.distinct _ ordinary]
      simp [mergeField, Keyed.get?, Exclusions.strip_none]
  · rw [journal_mergeObjects _ _ formed.distinct, Journal.losses_all]
    exact List.flatMap_eq_nil_iff.2 (List.forall_mem_map.2 fun entry taken => rfl)

/-- A record without fields forgets whatever is given, unless it keeps or rejects it. -/
theorem rebuild_of_empty (ignores : rule.unknown = .ignored) (given : Fields) :
    (Shape.record rule []).rebuild (.object given) = some (.object []) := by
  have forgets : rule.unknown ≠ .kept := by simp [ignores]
  have distinct : (names ([] : List (FieldRule × Shape))).Nodup := .nil
  exact (rebuild_object_iff forgets distinct).2
    ⟨[], rfl, by simp [ignores], .nil, fun _ _ => rfl, by simp⟩

/-- A struct without fields loses whatever is copied into it. -/
theorem copy_of_empty (follows : codec.Follows (.record rule []))
    (ignores : rule.unknown = .ignored)
    (written : source.encode src = .ok (.object given)) (formed : (Value.object given).WellFormed)
    (there : codec.encode dest = .ok (.object [])) :
    ∃ new, copy .none source codec src dest = ⟨.ok new, given.flatMap (lostField [])⟩ ∧
      codec.encode new = .ok (.object []) := by
  have noMaps : mapPaths codec.roundTrip [] = [] := by simp [mapPaths, entriesAt, collectMaps]
  obtain ⟨taken, lost⟩ := mergeObjects_nil formed
  -- The candidate has the fields of the source, and it is accepted at once.
  obtain ⟨new, rebuilt, writtenNew⟩ := roundTrip_eq_some.1
    ((follows _).trans (rebuild_of_empty ignores (takenFields ⟨.none, []⟩ Path.root given)))
  have chosen : candidate .none codec [] given =
      (.object (takenFields ⟨.none, []⟩ Path.root given), []) := by
    simp only [candidate, merge, noMaps, taken, lost, rebuilt, Option.isSome_some, if_true]
  have gone := @forgotten_eq [] (knownMaps codec [] (merge .none codec [] given).journal)
    (takenFields ⟨.none, []⟩ Path.root given) [] (fun _ _ => rfl)
    fun _ _ _ known => absurd known List.not_mem_nil
  refine ⟨new, ?_, writtenNew⟩
  simp only [copy, Codec.write, written, there, copyFields, chosen, Codec.rebuild, rebuilt,
    writtenNew, List.nil_append, gone]
  simp only [names, List.map_nil, List.not_mem_nil, if_false, flatMap_lostField]

/--
A copy into a flat struct goes field by field, and always goes through.

A refused field leaves every other one alone, and exactly what is refused or unknown is lost.
-/
theorem flat_copy_is_fieldwise (follows : codec.Follows (.record rule declared))
    (writable : ∀ v x, codec.decode v = some x → ∃ w, codec.encode x = .ok w)
    (flat : isFlat rule declared = true) (written : source.encode src = .ok (.object given))
    (formed : (Value.object given).WellFormed) (restores : codec.Restores dest (.object fields)) :
    ∃ new losses, copy .none source codec src dest = ⟨.ok new, losses⟩ ∧
      codec.encode new = .ok (.object
        (fields.map fun entry => (entry.1, copiedField declared given entry.1 entry.2))) ∧
      losses.Perm (given.flatMap (lostField declared)) := by
  have again := restores.fixed follows
  obtain ⟨all, ignores, _⟩ := isFlat_iff.1 flat
  obtain ⟨forgets, distinct, _⟩ := writesAll_iff.1 all
  rcases declared with _ | ⟨first, others⟩
  · -- Without declared fields the destination is the empty struct, and stays it.
    obtain rfl : fields = [] := by
      have empty := (rebuild_of_empty ignores fields).symm.trans again
      exact (Value.object.inj (Option.some.inj empty)).symm
    obtain ⟨new, copied, writtenNew⟩ :=
      copy_of_empty follows ignores written formed restores.written
    exact ⟨new, _, copied, writtenNew, .refl _⟩
  -- With fields it is of fixed structure, so that the candidate keeps exactly what is accepted.
  have onto : Onto codec rule (first :: others) fields given :=
    ⟨follows, writable, fixed_of_flat flat (List.cons_ne_nil _ _), again, restores.wellFormed,
      formed⟩
  obtain ⟨whole, chosen, place⟩ := onto.exists_place .none
  have meets := onto.meets place
  obtain ⟨kept, settled, settles, each⟩ := meets.settles_object
    (meets.settles_fields fun _ _ _ _ part => part.settles)
  obtain ⟨_, same, rebuilds⟩ := (rebuild_object_iff forgets distinct).1 settles.rebuilt
  obtain rfl := Value.object.inj same
  obtain rfl := Option.some.inj settles.stands
  obtain ⟨new, rebuilt, writtenNew⟩ := roundTrip_eq_some.1 ((follows _).trans settles.rebuilt)
  refine ⟨new, _, onto.copied written restores.written chosen rebuilt writtenNew, ?_, ?_⟩
  · rw [writtenNew, meets.settled_eq flat rebuilds.sorted rebuilds.declared each]
  · have losses := meets.losses_perm flat settles.stands rebuilds.declared each
    rw [onto.merged] at losses
    exact losses

/-- Fields of which hardly any can be kept. -/
private def unfit : Fields :=
  [("Extra", .bool true), ("Maybe", .string "some"), ("Name", .whole 5),
    ("NullFields", .strings ["Name", "Extra"]), ("Size", .whole (-1))]

/-- Fields that are not tracked. -/
private def untracked : Fields :=
  [("Maybe", .null), ("Name", .string "old"), ("NullFields", .strings []), ("Size", .whole 7)]

/--
A copy that loses a value in each way.

A number is no name, a size is out of range, null takes a text that is refused, and nothing keeps
an unknown field.
-/
theorem flat_copy_is_fieldwise_of_unfit : ∃ new losses,
    copy .none (Shape.any.codec "Value") (Catalog.nullsOnly.codec "NullsOnly") (.object unfit)
      (.object untracked) = ⟨.ok new, losses⟩ ∧
    (Catalog.nullsOnly.codec "NullsOnly").encode new =
      .ok (.object [("Maybe", .null), ("Name", .string ""), ("NullFields", .strings ["Name"]),
        ("Size", .whole 0)]) ∧
    losses.Perm [⟨Path.root.field "Extra", .bool true⟩, ⟨Path.root.field "Maybe", .string "some"⟩,
      ⟨Path.root.field "Name", .whole 5⟩, ⟨Path.root.field "Size", .whole (-1)⟩] :=
  have written : (Shape.any.codec "Value").encode (.object unfit) = .ok (.object unfit) := rfl
  have restores : (Catalog.nullsOnly.codec "NullsOnly").Restores (.object untracked)
    (.object untracked) := ⟨rfl, by rfl, by decide⟩
  flat_copy_is_fieldwise (Shape.follows_codec "NullsOnly" Catalog.nullsOnly) (fun _ x _ => ⟨x, rfl⟩)
    (by decide) written (by decide) restores

end Transfer

end Triversion
