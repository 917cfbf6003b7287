import Triversion.Proofs.Shape.Mould
import Triversion.Proofs.Transfer.Forgotten
import Triversion.Proofs.Transfer.Maps

/-!
Copies within one type.

Merged into a value of its own shape, a source value takes the place of whatever stood there: items
and entries of the old value serve as templates only, and nothing is lost.
-/

namespace Triversion

namespace Shape

/-- Whether a record declares bookkeeping lists as lists of names only. -/
def listsNames : Shape → Bool
  | .record _ fields =>
    fields.all fun field => !isBookkeeping field.1.name || field.2.isNameList
  | _ => true

/--
Whether a value of the shape is replaced by every other one that is copied into it.

Records write all their fields, maps have no maps inside them, and bookkeeping lists list names.
-/
def isReplaceable (shape : Shape) : Bool :=
  shape.everywhere fun inner => inner.isSteady && inner.hasFlatMaps && inner.listsNames

/-- Whether the bookkeeping lists of a record name ordinary fields of this record only. -/
def namesOwnFields (fields : List (FieldRule × Shape)) (given : Fields) : Bool :=
  bookkeepingLists.all fun list => (Value.listedNames given list).all fun name =>
    (names fields).contains name && !isBookkeeping name

mutual
/-- Whether the bookkeeping lists of every struct in a value name ordinary fields of the struct. -/
def wellNamed : Shape → Value → Bool
  | .optional shape, v => wellNamed shape v
  | .list shape, v =>
    match v with
    | .array items => items.all fun item => wellNamed shape item
    | _ => true
  | .map _ shape, v =>
    match v with
    | .object entries => entries.all fun entry => wellNamed shape entry.2
    | _ => true
  | .tuple shapes, v =>
    match v with
    | .array items => wellNamedItems shapes items
    | _ => true
  | .record _ fields, v =>
    match v with
    | .object given => namesOwnFields fields given && wellNamedFields fields given
    | _ => true
  | _, _ => true

/-- Whether the parts of a tuple are well named. -/
def wellNamedItems : List Shape → List Value → Bool
  | shape :: shapes, item :: items => wellNamed shape item && wellNamedItems shapes items
  | _, _ => true

/-- Whether the declared fields of an object are well named. -/
def wellNamedFields : List (FieldRule × Shape) → Fields → Bool
  | [], _ => true
  | field :: fields, given =>
    (match Keyed.get? field.1.name given with
      | some v => wellNamed field.2 v
      | none => true) && wellNamedFields fields given
end

/-- The names in a bookkeeping list are the texts among its items. -/
theorem mem_listedNames {given : Fields} {list : String} {items : List Value}
    (held : Keyed.get? list given = some (.array items)) {name : String} :
    name ∈ Value.listedNames given list ↔ .string name ∈ items := by
  rw [Value.listedNames, held]
  refine List.mem_filterMap.trans ⟨fun ⟨item, member, text⟩ => ?_, fun text => ⟨_, text, rfl⟩⟩
  cases item <;> simp [Value.string?] at text
  exact text ▸ member

/-- Bookkeeping lists name own fields if each of their texts is the name of an ordinary field. -/
theorem namesOwnFields_iff {fields : List (FieldRule × Shape)} {given : Fields} :
    namesOwnFields fields given = true ↔ ∀ list, isBookkeeping list = true → ∀ items,
      Keyed.get? list given = some (.array items) → ∀ name, .string name ∈ items →
        name ∈ names fields ∧ isBookkeeping name = false := by
  simp only [namesOwnFields, List.all_eq_true, Bool.and_eq_true, List.contains_iff_mem,
    Bool.not_eq_true', isBookkeeping]
  refine forall_congr' fun list => forall_congr' fun listed => ⟨fun own items held name text => ?_,
    fun own name inside => ?_⟩
  · exact own name ((mem_listedNames held).2 text)
  · -- A list that names something is a sequence.
    cases held : Keyed.get? list given with
    | none => simp [Value.listedNames, held] at inside
    | some v =>
      cases v with
      | array items => exact own items held name ((mem_listedNames held).1 inside)
      | _ => simp [Value.listedNames, held] at inside

/-- An object is well named if its own lists and all its fields are. -/
theorem wellNamed_record {rule : RecordRule} {fields : List (FieldRule × Shape)} {given : Fields} :
    wellNamed (.record rule fields) (.object given) = true ↔
      namesOwnFields fields given = true ∧ ∀ field ∈ fields, ∀ v,
        Keyed.get? field.1.name given = some v → wellNamed field.2 v = true := by
  have general : wellNamedFields fields given = true ↔ ∀ field ∈ fields, ∀ v,
      Keyed.get? field.1.name given = some v → wellNamed field.2 v = true := by
    induction fields with
    | nil => simp [wellNamedFields]
    | cons field rest ih =>
      rw [wellNamedFields, Bool.and_eq_true, ih, List.forall_mem_cons]
      refine and_congr_left fun _ => ?_
      cases Keyed.get? field.1.name given <;> simp
  rw [wellNamed, Bool.and_eq_true, general]

/-- Null lists no names. -/
@[simp] theorem wellNamed_null (shape : Shape) : shape.wellNamed .null = true := by
  induction shape using inductionOn with
  | optional shape ih => rwa [wellNamed]
  | _ => rfl

/-- A text lists no names. -/
@[simp] theorem wellNamed_string (shape : Shape) (text : String) :
    shape.wellNamed (.string text) = true := by
  induction shape using inductionOn with
  | optional shape ih => rwa [wellNamed]
  | _ => rfl

end Shape

/-- Names of ordinary fields that the destination has are all kept. -/
theorem keptNames_strings {known texts : List String}
    (own : ∀ name ∈ texts, name ∈ known ∧ isBookkeeping name = false) :
    keptNames known (texts.map .string) = texts.map .string := by
  refine List.filter_eq_self.2 (List.forall_mem_map.2 fun name member => ?_)
  obtain ⟨inside, ordinary⟩ := own name member
  simp [inside, ordinary]

/-- A source value that ends up as the result of its merge, with nothing lost. -/
structure Merged.Replaces (merged : Merged Value) (given : Value) : Prop where
  result : merged.result = given
  losses : merged.journal.losses = []

section Routes

open Shape

variable {maps : List Path}

/-- Every filled map inside a value that fields and positions lead to is known to be one. -/
def Charted (maps : List Path) (shape : Shape) (path : Path) (v : Value) : Prop :=
  ∀ rest inner entries, rest.Unkeyed →
    follow (Path.names rest) shape = some inner → inner.isMap = true →
    v.at? rest = some (.object entries) → entries ≠ [] → isMapAt maps (path ++ rest) = true

namespace Charted

variable {path : Path} {shape : Shape}

/-- Only the core of a shape tells where its maps are. -/
theorem of_core {other : Shape} {v : Value} (charted : Charted maps shape path v)
    (same : other.core = shape.core) : Charted maps other path v := by
  intro rest inner entries unkeyed follows
  rw [← follow_core, same, follow_core] at follows
  exact charted rest inner entries unkeyed follows

/-- A filled map is known itself. -/
theorem isMapAt {decimalKeys : Bool} {entries : Fields}
    (charted : Charted maps (.map decimalKeys shape) path (.object entries))
    (filled : entries ≠ []) : Triversion.isMapAt maps path = true := by
  have known := charted [] (.map decimalKeys shape) entries
    (fun _ member => absurd member List.not_mem_nil) rfl rfl rfl filled
  rwa [List.append_nil] at known

/-- What is inside one field of a record is charted with the record. -/
theorem field {rule : RecordRule} {fields : List (FieldRule × Shape)} {given : Fields}
    (charted : Charted maps (.record rule fields) path (.object given))
    (distinct : (names fields).Nodup) {field : FieldRule × Shape} (member : field ∈ fields)
    {v : Value} (held : Keyed.get? field.1.name given = some v) :
    Charted maps field.2 (path.field field.1.name) v := by
  intro rest inner entries unkeyed follows isMap found filled
  have known := charted (.field field.1.name :: rest) inner entries
    (List.forall_mem_cons.2 ⟨rfl, unkeyed⟩)
    (by simp [Segment.name?, follow, core, under?_record distinct member, follows]) isMap
    (by simp [Value.at?, Value.step?, held, found]) filled
  rwa [Path.field, List.append_assoc]

/-- What is inside one item of a sequence tells what is inside all items of its kind. -/
theorem template {first : Value} {others : List Value}
    (charted : Charted maps (.list shape) path (.array (first :: others))) (i : Nat) :
    Charted maps shape (path.index i) first.blank := by
  intro rest inner entries unkeyed follows isMap found filled
  obtain ⟨old, held, same⟩ := Value.at?_of_blank found
  -- A blank object is the blank of an object with as many fields.
  obtain ⟨before, rfl, filledBefore⟩ : ∃ before, old = .object before ∧ before ≠ [] := by
    cases old <;> simp [Value.blank] at same
    next before =>
      refine ⟨before, rfl, ?_⟩
      rintro rfl
      exact filled same
  have known := charted (.index 0 :: rest) inner before
    (List.forall_mem_cons.2 ⟨rfl, unkeyed⟩) ((follow_list _ shape).trans follows) isMap held
    filledBefore
  -- Positions do not count for what is known.
  have sameRoute : (path.index i ++ rest).withoutPositions =
      (path ++ .index 0 :: rest).withoutPositions := by
    simp [Path.index, Path.withoutPositions, Segment.isIndex]
  have filledRoute : (path.index i ++ rest).isEmpty = (path ++ .index 0 :: rest).isEmpty := by
    cases path <;> rfl
  rwa [Triversion.isMapAt, sameRoute, filledRoute]

/-- Where no maps are, there is nothing to chart. -/
theorem of_free (free : shape.everywhere (fun inner => !inner.isMap) = true) (v : Value) :
    Charted maps shape path v := by
  intro rest inner entries _ follows isMap
  rw [not_isMap_of_follow free follows] at isMap
  simp at isMap

end Charted

end Routes

section Replaces

open Shape

variable {maps : List Path} {path : Path}

/-- Null takes a value that is not null as a whole. -/
theorem mergeInto_null {rules : MergeRules} {given : Value} (filled : given.isNull = false) :
    mergeInto rules .null path given = takeWhole rules path given := by
  cases given <;> simp_all [mergeInto, mergeScalar, Value.isNull]

/-- A scalar that fits replaces a scalar. -/
theorem replaces_scalar {rules : MergeRules} {there given : Value}
    (fits : there.scalarFits given = true) : (mergeInto rules there path given).Replaces given := by
  rw [mergeInto_of_scalarFits _ _ fits]
  exact ⟨rfl, rfl⟩

/-- Parts of which nothing is lost make a whole of which nothing is lost. -/
theorem losses_eq_nil {α : Type} {parts : List α} {journal : α → Journal}
    (each : ∀ part ∈ parts, (journal part).losses = []) :
    (Journal.all (parts.map journal)).losses = [] := by
  rw [Journal.losses_all, List.flatMap_map]
  exact List.flatMap_eq_nil_iff.2 each

/--
A struct takes over the ordinary fields of another one, if those that both have are replaced.

The bookkeeping lists are left aside here, and what only the destination has stays.
-/
theorem takes_over_mergeObjects {there given : Fields} (distinct : (given.map (·.1)).Nodup)
    (each : ∀ name, isBookkeeping name = false → ∀ old v, Keyed.get? name there = some old →
      Keyed.get? name given = some v →
      (mergeInto ⟨.none, maps⟩ old (path.field name) v).Replaces v) :
    (∀ name, isBookkeeping name = false →
      Keyed.get? name (mergeObjects ⟨.none, maps⟩ path there given).result =
        (Keyed.get? name given).or (Keyed.get? name there)) ∧
      (mergeObjects ⟨.none, maps⟩ path there given).journal.losses = [] := by
  -- A field that the destination lacks enters it as it is.
  have merged : ∀ name v, isBookkeeping name = false → Keyed.get? name given = some v →
      (mergeField ⟨.none, maps⟩ path (Keyed.get? name there) name v).Replaces v := by
    intro name v ordinary held
    cases found : Keyed.get? name there with
    | some old => exact each name ordinary old v found held
    | none => exact ⟨Exclusions.strip_none _ _, rfl⟩
  constructor
  · intro name ordinary
    rw [get?_mergeObjects _ _ distinct _ ordinary, get?_takenFields, skips_none, ordinary,
      if_neg Bool.false_ne_true]
    cases held : Keyed.get? name given with
    | none => rfl
    | some v => rw [Option.map_some, (merged name v ordinary held).result]
  · rw [journal_mergeObjects _ _ distinct]
    refine losses_eq_nil fun entry member => ?_
    obtain ⟨listed, taken⟩ := mem_takenFields.1 member
    rw [skips_none] at taken
    exact (merged _ _ taken (Keyed.get?_of_mem distinct listed)).losses

/-- Of two structs of one type the second one replaces the first, if its fields do. -/
theorem replaces_mergeObjects {rule : RecordRule} {fields : List (FieldRule × Shape)}
    (all : writesAll rule fields = true)
    (lists : ∀ field ∈ fields, isBookkeeping field.1.name = true → field.2.isNameList = true)
    {there given : Fields} (formedThere : (Value.object there).WellFormed)
    (moulds : (Shape.record rule fields).Moulds (.object there))
    (formed : (Value.object given).WellFormed)
    (mould : (Shape.record rule fields).Moulds (.object given))
    (own : namesOwnFields fields given = true)
    (each : ∀ field ∈ fields, isBookkeeping field.1.name = false → ∀ old v,
      Keyed.get? field.1.name there = some old → Keyed.get? field.1.name given = some v →
      (mergeInto ⟨.none, maps⟩ old (path.field field.1.name) v).Replaces v) :
    (mergeObjects ⟨.none, maps⟩ path there given).result = given ∧
      (mergeObjects ⟨.none, maps⟩ path there given).journal.losses = [] := by
  -- Both structs have exactly the declared fields.
  have taken := takes_over_mergeObjects formed.distinct fun name ordinary old v found held => by
    obtain ⟨field, member, rfl⟩ := List.mem_map.1 (mould.mem_names held)
    exact each field member ordinary old v found held
  refine ⟨?_, taken.2⟩
  -- Both sides ascend, so they are equal if every name finds the same in them.
  have sortedThere := (Value.wellFormed_object.1 formedThere).1
  have sorted := (Value.wellFormed_object.1 formed).1
  refine Keyed.Ascending.ext (ascending_mergeObjects _ _ _ sortedThere) sorted fun name => ?_
  by_cases known : name ∈ names fields
  · obtain ⟨field, member, rfl⟩ := List.mem_map.1 known
    obtain ⟨old, found, _⟩ := moulds.get? all member
    obtain ⟨v, held, within⟩ := mould.get? all member
    cases ordinary : isBookkeeping field.1.name with
    | false => rw [taken.1 _ ordinary, held, Option.some_or]
    | true =>
      obtain ⟨texts, rfl⟩ := within.exists_strings (lists field member ordinary)
      -- The list names fields of the struct, so no name of it is left out.
      have kept : keptNames (there.map (·.1)) (texts.map .string) = texts.map .string := by
        refine keptNames_strings fun name inside => ?_
        obtain ⟨known, ordinaryName⟩ := namesOwnFields_iff.1 own _ ordinary _ held name
          (List.mem_map_of_mem inside)
        obtain ⟨other, another, rfl⟩ := List.mem_map.1 known
        obtain ⟨_, foundOther, _⟩ := moulds.get? all another
        exact ⟨List.mem_map.2 ⟨_, Keyed.mem_of_get? foundOther, rfl⟩, ordinaryName⟩
      rw [get?_mergeObjects_list formed.distinct ordinary, found, held, Option.map_some]
      exact congrArg (some ∘ Value.array) kept
  · -- An undeclared name is in neither struct, so the merge has no reason to bring it up.
    have missing := moulds.get?_of_unknown known
    have absent := mould.get?_of_unknown known
    cases ordinary : isBookkeeping name with
    | false => rw [taken.1 _ ordinary, absent, missing, Option.or_none]
    | true =>
      rw [get?_mergeObjects_list formed.distinct ordinary, missing, absent, Option.map_none]

/-- A sequence replaces a sequence if its items replace the template. -/
theorem replaces_mergeItems {rules : MergeRules} {template : Value} {given : List Value}
    (each : ∀ item ∈ given, ∀ i, (mergeInto rules template (path.index i) item).Replaces item) :
    ((mergeItems rules template path 0 given).map .array).Replaces (.array given) := by
  -- Every item is merged into the same template, at its own position.
  have inside : ∀ item ∈ given.zipIdx,
      (mergeInto rules template (path.index item.2) item.1).Replaces item.1 := by
    intro item listed
    exact each item.1 (List.mem_of_getElem? (List.mem_zipIdx_iff_getElem?.1 listed)) _
  rw [mergeItems_eq]
  refine ⟨congrArg Value.array ?_, losses_eq_nil fun item listed => (inside item listed).losses⟩
  rw [List.map_congr_left fun item listed => (inside item listed).result, List.zipIdx_map_fst]

/-- A map replaces a map if its values replace the template. -/
theorem replaces_mergeEntries {rules : MergeRules} {template : Value} {given : Fields}
    (each : ∀ entry ∈ given,
      (mergeInto rules template (path.key entry.1) entry.2).Replaces entry.2) :
    let merged := mergeEntries rules template path given
    Merged.Replaces ⟨.object merged.result, .mapAt path ++ merged.journal⟩ (.object given) := by
  rw [mergeEntries_eq]
  refine ⟨congrArg Value.object ?_, losses_eq_nil fun entry listed => (each entry listed).losses⟩
  have kept : ∀ entry ∈ given,
      (entry.1, (mergeInto rules template (path.key entry.1) entry.2).result) = entry :=
    fun entry listed => Prod.ext rfl (each entry listed).result
  rw [List.map_congr_left kept, List.map_id']

theorem isReplaceable.steady {shape : Shape} (replaceable : shape.isReplaceable = true) :
    shape.everywhere isSteady = true :=
  everywhere_mono (fun _ holds => (Bool.and_eq_true_iff.1 (Bool.and_eq_true_iff.1 holds).1).1)
    replaceable

theorem isReplaceable.flat {shape : Shape} (replaceable : shape.isReplaceable = true) :
    shape.everywhere hasFlatMaps = true :=
  everywhere_mono (fun _ holds => (Bool.and_eq_true_iff.1 (Bool.and_eq_true_iff.1 holds).1).2)
    replaceable

/-- A record is replaceable if it writes all fields, its fields are, and its lists list names. -/
theorem isReplaceable_record {rule : RecordRule} {fields : List (FieldRule × Shape)}
    (replaceable : (Shape.record rule fields).isReplaceable = true) :
    writesAll rule fields = true ∧ (∀ field ∈ fields, field.2.isReplaceable = true) ∧
      ∀ field ∈ fields, isBookkeeping field.1.name = true → field.2.isNameList = true := by
  obtain ⟨here, inside⟩ := everywhere_record.1 replaceable
  obtain ⟨both, lists⟩ := Bool.and_eq_true_iff.1 here
  refine ⟨(Bool.and_eq_true_iff.1 both).1, inside, fun field member list => ?_⟩
  simpa [list] using List.all_eq_true.1 lists field member

/--
A destination value at one place of the whole.

The place has the shape, the value is in its mould, the maps of the value are known, and nothing
but a map is taken for one anywhere.
-/
structure Ground (root : Shape) (maps : List Path) (shape : Shape) (path : Path)
    (there : Value) : Prop where
  sound : MapsOf root maps
  reached : follow (Path.names path) root = some shape.core
  formedThere : there.WellFormed
  moulds : shape.Moulds there
  charted : Charted maps shape path there

variable {root shape : Shape}

/-- The fields of a struct are at places of their own. -/
theorem Ground.field {rule : RecordRule} {fields : List (FieldRule × Shape)} {there : Fields}
    (ground : Ground root maps (.record rule fields) path (.object there))
    (all : writesAll rule fields = true) {field : FieldRule × Shape} (member : field ∈ fields)
    {old : Value} (found : Keyed.get? field.1.name there = some old) :
    Ground root maps field.2 (path.field field.1.name) old := by
  obtain ⟨sound, reached, formedThere, moulds, charted⟩ := ground
  obtain ⟨_, distinct, _⟩ := writesAll_iff.1 all
  cases moulds with
  | record _ _ _ each =>
  exact {
    sound := sound
    reached := by
      rw [Path.names_field, follow_append, reached]
      simp [follow, core, under?_record distinct member]
    formedThere := formedThere.of_get? found
    moulds := each field member old (Keyed.mem_of_get? found)
    charted := charted.field distinct member found }

/-- A well named source value over a destination value, both in the mould of one shape. -/
structure Overlay (root : Shape) (maps : List Path) (shape : Shape) (path : Path)
    (there given : Value) : Prop extends Ground root maps shape path there where
  formed : given.WellFormed
  mould : shape.Moulds given
  named : shape.wellNamed given = true

namespace Overlay

/-- What is optional lies over what is optional, unless one of both is null. -/
theorem optional {there given : Value}
    (overlay : Overlay root maps (.optional shape) path there given)
    (filled : there.isNull = false) (filledGiven : given.isNull = false) :
    Overlay root maps shape path there given := by
  obtain ⟨⟨sound, reached, formedThere, moulds, charted⟩, formed, mould, named⟩ := overlay
  cases moulds with
  | absent => simp [Value.isNull] at filled
  | present within =>
    cases mould with
    | absent => simp [Value.isNull] at filledGiven
    | present mould =>
      exact ⟨⟨sound, reached, formedThere, within, charted.of_core rfl⟩, formed, mould, named⟩

/-- Every item lies over the blank of the first one. -/
theorem item {first : Value} {others given : List Value}
    (overlay : Overlay root maps (.list shape) path (.array (first :: others)) (.array given))
    {item : Value} (member : item ∈ given) (i : Nat) :
    Overlay root maps shape (path.index i) first.blank item := by
  obtain ⟨⟨sound, reached, formedThere, moulds, charted⟩, formed, mould, named⟩ := overlay
  cases moulds with
  | list each =>
  cases mould with
  | list eachGiven =>
  rw [wellNamed, List.all_eq_true] at named
  exact {
    sound := sound
    reached := (congrArg (follow · root) (Path.names_index path i)).trans reached
    formedThere := (Value.wellFormed_array.1 formedThere first List.mem_cons_self).blank
    moulds := (each first List.mem_cons_self).blank
    charted := charted.template i
    formed := Value.wellFormed_array.1 formed item member
    mould := eachGiven item member
    named := named item member }

/-- Every value of a map lies over the blank of the first one. -/
theorem entry {decimalKeys : Bool} {name : String} {first : Value} {others given : Fields}
    (overlay : Overlay root maps (.map decimalKeys shape) path (.object ((name, first) :: others))
      (.object given))
    (free : shape.everywhere (fun inner => !inner.isMap) = true)
    {entry : String × Value} (member : entry ∈ given) :
    Overlay root maps shape (path.key entry.1) first.blank entry.2 := by
  obtain ⟨⟨sound, reached, formedThere, moulds, charted⟩, formed, mould, named⟩ := overlay
  cases moulds with
  | map _ each =>
  cases mould with
  | map _ eachGiven =>
  rw [wellNamed, List.all_eq_true] at named
  exact {
    sound := sound
    reached := by rw [Path.names_key, follow_append, reached]; rfl
    formedThere := ((Value.wellFormed_object.1 formedThere).2 _ List.mem_cons_self).blank
    moulds := (each _ List.mem_cons_self).blank
    -- There are no maps inside the values, so nothing about them has to be known.
    charted := .of_free free _
    formed := (Value.wellFormed_object.1 formed).2 entry member
    mould := eachGiven entry member
    named := named entry member }

/-- Every field lies over the field of its name. -/
theorem field {rule : RecordRule} {fields : List (FieldRule × Shape)} {there given : Fields}
    (overlay : Overlay root maps (.record rule fields) path (.object there) (.object given))
    (all : writesAll rule fields = true) {field : FieldRule × Shape} (member : field ∈ fields)
    {old v : Value} (found : Keyed.get? field.1.name there = some old)
    (held : Keyed.get? field.1.name given = some v) :
    Overlay root maps field.2 (path.field field.1.name) old v := by
  obtain ⟨ground, formed, mould, named⟩ := overlay
  cases mould with
  | record _ _ _ eachGiven =>
  exact {
    toGround := ground.field all member found
    formed := formed.of_get? held
    mould := eachGiven field member v (Keyed.mem_of_get? held)
    named := (wellNamed_record.1 named).2 field member _ held }

/-- A struct replaces a struct if its fields replace those of the other one. -/
theorem replaces_mergeObjects {rule : RecordRule} {fields : List (FieldRule × Shape)}
    {there given : Fields}
    (overlay : Overlay root maps (.record rule fields) path (.object there) (.object given))
    (all : writesAll rule fields = true)
    (lists : ∀ field ∈ fields, isBookkeeping field.1.name = true → field.2.isNameList = true)
    (each : ∀ field ∈ fields, ∀ old v, Overlay root maps field.2 (path.field field.1.name) old v →
      (mergeInto ⟨.none, maps⟩ old (path.field field.1.name) v).Replaces v) :
    ((mergeObjects ⟨.none, maps⟩ path there given).map .object).Replaces (.object given) := by
  obtain ⟨result, losses⟩ := Triversion.replaces_mergeObjects all lists overlay.formedThere
    overlay.moulds overlay.formed overlay.mould (wellNamed_record.1 overlay.named).1
    fun field member _ old v found held =>
      each field member old v (overlay.field all member found held)
  exact ⟨congrArg Value.object result, losses⟩

/-- A source value replaces every destination value that it lies over. -/
theorem replaces_mergeInto (replaceable : shape.isReplaceable = true) {there given : Value}
    (overlay : Overlay root maps shape path there given) :
    (mergeInto ⟨.none, maps⟩ there path given).Replaces given := by
  -- Both values are in the mould of the shape, so their kinds agree.
  have mould := overlay.mould
  induction shape using inductionOn generalizing there path given with
  | bool | string | integer low high | float | choice words =>
    cases overlay.moulds
    cases mould
    exact replaces_scalar rfl
  | unit =>
    cases overlay.moulds
    cases mould
    rw [mergeInto]
    exact ⟨rfl, rfl⟩
  | any | tuple shapes ih => cases mould
  | optional shape ih =>
    have inside := (everywhere_optional.1 replaceable).2
    cases null : given.isNull with
    | true =>
      -- Null clears whatever stands there, and loses nothing.
      obtain rfl := Value.isNull_iff.1 null
      rw [mergeInto, clearTo]
      split <;> exact ⟨rfl, rfl⟩
    | false =>
      cases nullThere : there.isNull with
      | true =>
        obtain rfl := Value.isNull_iff.1 nullThere
        rw [mergeInto_null null, takeWhole, Exclusions.strip_none]
        exact ⟨rfl, rfl⟩
      | false =>
        have within := overlay.optional nullThere null
        exact ih inside within within.mould
  | list shape ih =>
    have inside := (everywhere_list.1 replaceable).2
    cases mould with
    | list _ =>
    cases there with
    | array items =>
      cases items with
      | nil =>
        next given _ =>
        have kept := Exclusions.strip_none path (.array given)
        rw [Exclusions.strip] at kept
        simp only [mergeInto, kept]
        exact ⟨rfl, rfl⟩
      | cons first others =>
        simp only [mergeInto]
        refine replaces_mergeItems fun item member i => ?_
        have within := overlay.item member i
        exact ih inside within within.mould
    | _ => cases overlay.moulds
  | map decimalKeys shape ih =>
    have inside := (everywhere_map.1 replaceable).2
    cases mould with
    | map _ _ =>
    cases there with
    | object entries =>
      cases entries with
      | nil =>
        simp only [mergeInto, wholeEntries_none]
        exact ⟨rfl, rfl⟩
      | cons first others =>
        obtain ⟨name, first⟩ := first
        simp only [mergeInto, overlay.charted.isMapAt (List.cons_ne_nil _ _), if_true]
        refine replaces_mergeEntries fun entry member => ?_
        have within := overlay.entry (everywhere_map.1 (isReplaceable.flat replaceable)).1 member
        exact ih inside within within.mould
    | _ => cases overlay.moulds
  | record rule fields ih =>
    obtain ⟨all, inside, lists⟩ := isReplaceable_record replaceable
    cases mould with
    | record _ _ _ _ =>
    cases there with
    | object old =>
      cases old with
      | nil =>
        simp only [mergeInto, wholeEntries_none]
        exact ⟨rfl, rfl⟩
      | cons first others =>
        obtain ⟨name, first⟩ := first
        simp only [mergeInto, overlay.sound.isMapAt_record overlay.reached, Bool.false_eq_true,
          if_false]
        exact overlay.replaces_mergeObjects all lists fun field member old v within =>
          ih field member (inside field member) within within.mould
    | _ => cases overlay.moulds

end Overlay

end Replaces

namespace Transfer

open Shape

variable {α : Type} {codec : Codec α} {rule : RecordRule} {declared : List (FieldRule × Shape)}
  {x y : α} {fields given : Fields}

/-- The root of a written destination is charted by the maps that are found in it. -/
theorem charted_mapPaths {shape : Shape} (replaceable : shape.isReplaceable = true)
    (moulds : shape.Moulds (.object fields))
    (fixed : shape.rebuild (.object fields) = some (.object fields))
    (notMap : shape.core.isMap = false) :
    Charted (mapPaths shape.rebuild fields) shape Path.root (.object fields) := by
  intro rest inner entries unkeyed follows isMap found filled
  have anchored := anchored_of_steady (isReplaceable.steady replaceable)
  have once := everywhere_mono (fun _ => isAnchored.declaresOnce) anchored
  obtain ⟨last, reached, ends⟩ := reaches_of_unkeyed (isReplaceable.flat replaceable) once moulds
    found unkeyed follows isMap
  have below : Below rest shape last := by
    cases rest with
    | nil =>
      rw [← Option.some.inj follows, notMap] at isMap
      simp at isMap
    | cons segment rest =>
      obtain ⟨next, enters, later⟩ := reached
      cases segment with
      | field name => exact ⟨next, enters.step, later⟩
      | index i => simp [Value.at?, Value.step?] at found
      | key k => simp [Path.Unkeyed, Segment.bare] at unkeyed
  exact charts_mapPaths anchored fixed rest last entries below ends found filled

/-- A written destination is the ground of a copy into it. -/
theorem ground_of_restores (follows : codec.Follows (.record rule declared))
    (replaceable : (Shape.record rule declared).isReplaceable = true)
    (old : codec.Restores x (.object fields)) :
    Ground (.record rule declared) (mapPaths codec.roundTrip fields) (.record rule declared)
      Path.root (.object fields) := by
  have fixed := old.fixed follows
  have anchored := anchored_of_steady (isReplaceable.steady replaceable)
  have moulds := moulds_of_rebuild anchored old.wellFormed fixed
  -- The routes that are found lead to maps only, and to all maps that matter.
  rw [funext follows]
  exact {
    sound := follow_of_mem_mapPaths anchored old.wellFormed fixed
    reached := rfl
    formedThere := old.wellFormed
    moulds := moulds
    charted := charted_mapPaths replaceable moulds fixed rfl }

/-- Merged into another value of its record type, a value takes its place. -/
theorem replaces_merge (follows : codec.Follows (.record rule declared))
    (replaceable : (Shape.record rule declared).isReplaceable = true)
    (old : codec.Restores x (.object fields)) (new : codec.Restores y (.object given))
    (named : (Shape.record rule declared).wellNamed (.object given) = true) :
    ((merge .none codec fields given).map .object).Replaces (.object given) := by
  have anchored := anchored_of_steady (isReplaceable.steady replaceable)
  obtain ⟨all, inside, lists⟩ := isReplaceable_record replaceable
  have overlay : Overlay (.record rule declared) (mapPaths codec.roundTrip fields)
      (.record rule declared) Path.root (.object fields) (.object given) := {
    toGround := ground_of_restores follows replaceable old
    formed := new.wellFormed
    mould := moulds_of_rebuild anchored new.wellFormed (new.fixed follows)
    named := named }
  exact overlay.replaces_mergeObjects all lists
    fun field member _ _ within => within.replaces_mergeInto (inside field member)

/-- A copy within a record type replaces the whole destination, and loses nothing. -/
theorem copy_of_restores (follows : codec.Follows (.record rule declared))
    (replaceable : (Shape.record rule declared).isReplaceable = true) {v w : Value}
    (old : codec.Restores x v) (new : codec.Restores y w)
    (named : (Shape.record rule declared).wellNamed w = true) :
    copy .none codec codec y x = ⟨.ok y, []⟩ := by
  obtain ⟨both, _⟩ := Bool.and_eq_true_iff.1 (everywhere_record.1 replaceable).1
  obtain ⟨forgets, distinct, _⟩ := writesAll_iff.1 (Bool.and_eq_true_iff.1 both).1
  obtain ⟨fields, rfl, _⟩ := rebuilds_of_fixed forgets distinct (old.fixed follows)
  obtain ⟨given, rfl, _⟩ := rebuilds_of_fixed forgets distinct (new.fixed follows)
  obtain ⟨result, losses⟩ := replaces_merge follows replaceable old new named
  simp only [Merged.map] at result losses
  -- The merged candidate is the source itself, which is accepted at once.
  simp only [copy, Codec.write, new.written, old.written, copyFields, candidate, result, losses,
    new.rebuilt, Option.isSome_some, if_true, Codec.rebuild, List.nil_append,
    forgotten_self _ _ new.wellFormed]

end Transfer

end Triversion
