import Triversion.Catalog
import Triversion.Proofs.Transfer.Drawn
import Triversion.Proofs.Transfer.Replacement
import Triversion.Proofs.Value.Scalars

/-!
Bookkeeping lists across a copy.

Where two structs meet, each list keeps the source's names that are fields of the destination. What
a merge takes as one value passes unfiltered, so a copy leaves its destination well named if every
such value is well named once the destination type has rebuilt it.
-/

namespace Triversion

namespace Shape

/-- Whether the default of a shape is well named. -/
def hasNamedDefault (shape : Shape) : Bool :=
  shape.wellNamed shape.initial

/-- A scalar is rebuilt as a scalar or as a word, and lists no names. -/
theorem wellNamed_of_scalar {shape : Shape} {v w : Value} (scalar : v.isScalar = true)
    (rebuilt : shape.rebuild v = some w) : shape.wellNamed w = true := by
  induction shape using inductionOn with
  | optional shape ih =>
    rw [wellNamed]
    cases v with
    | null => contradiction
    | _ => exact ih rebuilt
  | list | map | tuple | record => cases v <;> simp [Value.isScalar, rebuild] at scalar rebuilt
  | _ => rfl

/-- What is inside a well-named value is well named. -/
theorem wellNamed_step {shape inner : Shape} {segment : Segment} {v part : Value}
    (step : Step segment shape inner) (named : shape.wellNamed v = true)
    (found : v.step? segment = some part) : inner.wellNamed part = true := by
  induction step with
  | optional step ih =>
    rw [wellNamed] at named
    exact ih named found
  | item i =>
    cases v with
    | array items =>
      rw [wellNamed, List.all_eq_true] at named
      exact named part (List.mem_of_getElem? found)
    | _ => simp [Value.step?] at found
  | @entry segment name same decimalKeys shape =>
    cases v with
    | object entries =>
      rw [Value.step?_object, same, Option.bind_some] at found
      rw [wellNamed, List.all_eq_true] at named
      exact named _ (Keyed.mem_of_get? found)
    | _ => cases segment <;> simp [Value.step?, Segment.name?] at found same
  | @field segment rule fields field member same =>
    cases v with
    | object given =>
      rw [Value.step?_object, same, Option.bind_some] at found
      exact (wellNamed_record.1 named).2 field member part found
    | _ => cases segment <;> simp [Value.step?, Segment.name?] at found same

/-- The lists of a well-named struct name fields of the struct. -/
theorem own_of_wellNamed {shape inner : Shape} {fields : Fields}
    (named : shape.wellNamed (.object fields) = true) (isStruct : shape.core.isMap = false)
    {list : String} (listed : isBookkeeping list = true) (step : Step (.field list) shape inner)
    {items : List Value} (held : Keyed.get? list fields = some (.array items)) {name : String}
    (text : .string name ∈ items) :
    (∃ own, Step (.field name) shape own) ∧ isBookkeeping name = false := by
  generalize same : Segment.field list = segment at step
  induction step with
  | optional _ ih =>
    rw [wellNamed] at named
    obtain ⟨⟨own, step⟩, ordinary⟩ := ih named isStruct same
    exact ⟨⟨own, .optional step⟩, ordinary⟩
  | item _ => contradiction
  | entry _ _ _ => simp [core, isMap] at isStruct
  | @field _ rule declared _ _ _ =>
    obtain ⟨known, ordinary⟩ :=
      namesOwnFields_iff.1 (wellNamed_record.1 named).1 list listed items held name text
    obtain ⟨field, member, rfl⟩ := List.mem_map.1 known
    exact ⟨⟨field.2, .field member rfl⟩, ordinary⟩

/-- A list without items names nothing. -/
theorem namesOwnFields_of_silent {fields : List (FieldRule × Shape)} {given : Fields}
    (silent : ∀ list, Value.listedNames given list = []) :
    namesOwnFields fields given = true := by
  simp [namesOwnFields, silent]

/-- A blank value is well named, since its lists are empty. -/
theorem wellNamed_blank {shape : Shape} {v : Value} (moulds : shape.Moulds v) :
    shape.wellNamed v.blank = true := by
  induction moulds with
  | present inside ih => rwa [wellNamed]
  | list each ih => rfl
  | map decimalKeys each ih =>
    rw [Value.blank, Value.blankFields_eq, wellNamed, List.all_eq_true]
    intro entry member
    obtain ⟨old, listed, rfl⟩ := List.mem_map.1 member
    exact ih old listed
  | @record rule fields given declared complete each ih =>
    rw [Value.blank, Value.blankFields_eq, wellNamed_record]
    have held := fun name => Keyed.get?_map (fun _ => Value.blank) name given
    refine ⟨namesOwnFields_of_silent fun list => ?_, fun field member v found => ?_⟩
    · rw [Value.listedNames, held]
      cases Keyed.get? list given with
      | none => rfl
      | some old => cases old <;> simp [Value.blank]
    · rw [held] at found
      obtain ⟨old, before, rfl⟩ := Option.map_eq_some_iff.1 found
      exact ih field member old (Keyed.mem_of_get? before)
  | _ => simp [Value.blank, wellNamed]

section Default

variable {rule : RecordRule} {fields : List (FieldRule × Shape)}

/-- A record that writes all its fields writes all their defaults. -/
theorem initialFields_eq (all : writesAll rule fields = true) :
    initialFields fields = fields.map fun field => (field.1.name, field.1.initial) := by
  have written := (writesAll_iff.1 all).2.2
  rw [initialFields, List.flatMap_def, List.map_congr_left fun field member => by
    rw [FieldRule.entry, FieldRule.keeps, (written field member).1, if_pos rfl]]
  exact (List.map_eq_flatMap ..).symm

/-- The default of a record holds the default of each field. -/
theorem get?_initialFields (all : writesAll rule fields = true) {field : FieldRule × Shape}
    (member : field ∈ fields) :
    Keyed.get? field.1.name (Keyed.ofList (initialFields fields)) = some field.1.initial := by
  have distinct := (writesAll_iff.1 all).2.1
  have keys : (fields.map fun field => (field.1.name, field.1.initial)).map (·.1) =
      names fields := by
    rw [List.map_map]
    rfl
  rw [initialFields_eq all, Keyed.get?_ofList (keys ▸ distinct)]
  exact Keyed.get?_of_mem (keys ▸ distinct) (List.mem_map.2 ⟨field, member, rfl⟩)

/-- The fields of a well-named default are well named. -/
theorem wellNamed_initial (all : writesAll rule fields = true)
    (named : (Shape.record rule fields).hasNamedDefault = true) {field : FieldRule × Shape}
    (member : field ∈ fields) : field.2.wellNamed field.1.initial = true :=
  (wellNamed_record.1 named).2 field member _ (get?_initialFields all member)

/-- The lists of a well-named default name fields of the record. -/
theorem own_of_initial (all : writesAll rule fields = true)
    (named : (Shape.record rule fields).hasNamedDefault = true) {field : FieldRule × Shape}
    (member : field ∈ fields) (listed : isBookkeeping field.1.name = true) {items : List Value}
    (initial : field.1.initial = .array items) {name : String} (inside : .string name ∈ items) :
    name ∈ Shape.names fields ∧ isBookkeeping name = false := by
  have held : Keyed.get? field.1.name (Keyed.ofList (initialFields fields)) = some (.array items) :=
    initial ▸ get?_initialFields all member
  exact namesOwnFields_iff.1 (wellNamed_record.1 named).1 _ listed items held name inside

/-- A record without fields is well named, since it has no lists. -/
theorem wellNamed_of_empty (none : fields = []) {v w : Value}
    (rebuilt : (Shape.record rule fields).rebuild v = some w) (forgets : rule.unknown ≠ .kept) :
    (Shape.record rule fields).wellNamed w = true := by
  subst none
  have empty : w = .object [] := by
    cases v with
    | object given =>
      simp only [rebuild, forgets, if_false] at rebuilt
      split at rebuilt
      · simp at rebuilt
      · exact (Option.some.inj rebuilt).symm
    | array items =>
      simp only [rebuild, rebuildPositions] at rebuilt
      split at rebuilt
      · split at rebuilt
        · exact (Option.some.inj rebuilt).symm
        · simp at rebuilt
      · simp at rebuilt
    | _ => simp [rebuild] at rebuilt
  subst empty
  rfl

end Default

section Texts

/-- A text that is rebuilt is rebuilt as it is. -/
theorem rebuild_text {shape : Shape} (steady : shape.everywhere isSteady = true) {text : String}
    {w : Value} (rebuilt : shape.rebuild (.string text) = some w) : w = .string text := by
  induction shape using inductionOn with
  | optional shape ih => exact ih (everywhere_optional.1 steady).2 rebuilt
  | string => exact (Option.some.inj rebuilt).symm
  | choice words =>
    obtain ⟨_, same⟩ : words.contains text = true ∧ .string text = w := by
      simpa [rebuild, rebuildChoice] using rebuilt
    exact same.symm
  | any | tuple shapes => simp [Shape.everywhere, isSteady] at steady
  | _ => simp [rebuild, rebuildFloat, Value.isNull] at rebuilt

/-- A list of texts is well named, whatever it is rebuilt as. -/
theorem wellNamed_of_texts {shape : Shape} (steady : shape.everywhere isSteady = true)
    (defaults : shape.everywhere hasNamedDefault = true) {texts : List String} {w : Value}
    (rebuilt : shape.rebuild (.array (texts.map .string)) = some w) : shape.wellNamed w = true := by
  induction shape using inductionOn generalizing w with
  | optional shape ih =>
    rw [wellNamed]
    exact ih (everywhere_optional.1 steady).2 (everywhere_optional.1 defaults).2 rebuilt
  | list shape ih =>
    obtain ⟨results, passed, rfl⟩ := Option.map_eq_some_iff.1 (by rwa [rebuild] at rebuilt)
    rw [wellNamed, List.all_eq_true]
    intro item member
    -- Every item is one of the texts.
    obtain ⟨v, listed, taken⟩ := exists_mem_of_mapM passed member
    obtain ⟨text, _, rfl⟩ := List.mem_map.1 listed
    rw [rebuild_text (everywhere_list.1 steady).2 taken]
    exact wellNamed_string shape text
  | record rule fields =>
    obtain ⟨all, inside⟩ := everywhere_record.1 steady
    obtain ⟨_, distinct, written⟩ := writesAll_iff.1 all
    have defaultNamed := (everywhere_record.1 defaults).1
    simp only [rebuild] at rebuilt
    split at rebuilt
    · obtain ⟨result, positions, rfl⟩ := Option.map_eq_some_iff.1 rebuilt
      obtain ⟨undeclared, origin⟩ := get?_of_rebuildPositions distinct written positions
      have held : ∀ field ∈ fields, ∀ v, Keyed.get? field.1.name (Keyed.ofList result) = some v →
          (∃ text, v = .string text) ∨ v = field.1.initial := by
        intro field member v stands
        obtain ⟨w, found, origin⟩ := origin field member
        obtain rfl := Option.some.inj (found.symm.trans stands)
        refine origin.imp_left ?_
        rintro ⟨item, given, taken⟩
        obtain ⟨text, _, rfl⟩ := List.mem_map.1 given
        exact ⟨text, rebuild_text (inside field member) taken⟩
      refine wellNamed_record.2 ⟨?_, fun field member v stands => ?_⟩
      · refine namesOwnFields_iff.2 fun list listed items stands name named => ?_
        have declared : list ∈ names fields := by
          apply Classical.byContradiction
          intro unknown
          simp [undeclared list unknown] at stands
        obtain ⟨field, member, rfl⟩ := List.mem_map.1 declared
        rcases held field member _ stands with ⟨text, same⟩ | initial
        · simp at same
        · exact own_of_initial all defaultNamed member listed initial.symm named
      · rcases held field member v stands with ⟨text, rfl⟩ | rfl
        · exact wellNamed_string _ _
        · exact wellNamed_initial all defaultNamed member
    · simp at rebuilt
  | any | tuple shapes => simp [Shape.everywhere, isSteady] at steady
  | _ => simp [rebuild, rebuildFloat, rebuildChoice, Value.isNull] at rebuilt

/-- A list that is rebuilt from texts holds none but these. -/
theorem mem_texts {shape : Shape} (steady : shape.everywhere isSteady = true)
    {texts : List String} {items : List Value}
    (rebuilt : shape.rebuild (.array (texts.map .string)) = some (.array items)) :
    ∀ item ∈ items, item ∈ texts.map Value.string := by
  induction shape using inductionOn with
  | optional shape ih => exact ih (everywhere_optional.1 steady).2 rebuilt
  | list shape ih =>
    obtain ⟨results, passed, same⟩ := Option.map_eq_some_iff.1 (by rwa [rebuild] at rebuilt)
    obtain rfl := Value.array.inj same
    intro item member
    obtain ⟨v, listed, taken⟩ := exists_mem_of_mapM passed member
    obtain ⟨text, _, rfl⟩ := List.mem_map.1 listed
    rwa [rebuild_text (everywhere_list.1 steady).2 taken]
  | record rule fields =>
    simp only [rebuild] at rebuilt
    split at rebuilt
    · obtain ⟨_, _, same⟩ := Option.map_eq_some_iff.1 rebuilt
      simp [Value.ofFields] at same
    · simp at rebuilt
  | any | tuple shapes => simp [Shape.everywhere, isSteady] at steady
  | _ => simp [rebuild, rebuildFloat, rebuildChoice, Value.isNull] at rebuilt

end Texts

section Parts

/-- A rebuilt sequence is well named if its items are. -/
theorem wellNamed_of_items {shape : Shape} {others items : List Value} {w : Value}
    (moulds : shape.Moulds (.array others)) (rebuilt : shape.rebuild (.array items) = some w)
    (each : ∀ i item inner settled, Step (.index i) shape inner → items[i]? = some item →
      inner.rebuild item = some settled → inner.wellNamed settled = true) :
    shape.wellNamed w = true := by
  generalize sequence : Value.array others = v at moulds
  induction moulds with
  | present _ ih =>
    rw [wellNamed]
    exact ih rebuilt (fun i item inner settled step => each i item inner settled (.optional step))
      sequence
  | list _ _ =>
    obtain ⟨results, passed, rfl⟩ := Option.map_eq_some_iff.1 (by rwa [rebuild] at rebuilt)
    rw [wellNamed, List.all_eq_true]
    intro settled member
    obtain ⟨i, found⟩ := List.mem_iff_getElem?.1 member
    obtain ⟨item, held, taken⟩ := exists_getElem?_of_mapM passed found
    exact each i item _ settled (.item i) held taken
  | _ => simp [Value.whole] at sequence

/--
A rebuilt object is well named if the values under its names are.

If it is a struct, its lists have to name fields of the struct.
-/
theorem wellNamed_of_entries {shape : Shape} (steady : shape.everywhere isSteady = true)
    (defaults : shape.everywhere hasNamedDefault = true) {fields entries : Fields} {w : Value}
    (moulds : shape.Moulds (.object fields)) (formed : (Value.object entries).WellFormed)
    (rebuilt : shape.rebuild (.object entries) = some w)
    (each : ∀ name v inner settled, Step (.field name) shape inner →
      Keyed.get? name entries = some v → inner.rebuild v = some settled →
        inner.wellNamed settled = true)
    (lists : shape.core.isMap = false → ∀ list v inner items, isBookkeeping list = true →
      Step (.field list) shape inner → Keyed.get? list entries = some v →
        inner.rebuild v = some (.array items) → ∀ name, .string name ∈ items →
          (∃ own, Step (.field name) shape own) ∧ isBookkeeping name = false) :
    shape.wellNamed w = true := by
  generalize object : Value.object fields = v at moulds
  induction moulds with
  | @present shape _ _ ih =>
    rw [wellNamed]
    refine ih (everywhere_optional.1 steady).2 (everywhere_optional.1 defaults).2 rebuilt
      (fun name v inner settled step => each name v inner settled (.optional step)) ?_ object
    intro notMap list v inner items listed step held taken name inside
    obtain ⟨⟨own, leads⟩, ordinary⟩ :=
      lists notMap list v inner items listed (.optional step) held taken name inside
    cases leads with
    | optional leads => exact ⟨⟨own, leads⟩, ordinary⟩
  | map decimalKeys _ _ =>
    simp only [rebuild] at rebuilt
    split at rebuilt
    · simp at rebuilt
    · obtain ⟨results, passed, rfl⟩ := Option.map_eq_some_iff.1 rebuilt
      rw [wellNamed, List.all_eq_true]
      intro settled member
      -- Every entry of the result is rebuilt from the entry under its key.
      obtain ⟨entry, listed, taken⟩ := exists_mem_of_mapM passed member
      obtain ⟨v, rebuiltEntry, rfl⟩ := Option.map_eq_some_iff.1 taken
      exact each _ _ _ v (.entry rfl decimalKeys _) (Keyed.get?_of_mem formed.distinct listed)
        rebuiltEntry
  | @record rule declared given _ _ _ _ =>
    have all : writesAll rule declared = true := (everywhere_record.1 steady).1
    have named := (everywhere_record.1 defaults).1
    obtain ⟨forgets, distinct, written⟩ := writesAll_iff.1 all
    obtain ⟨kept, rfl, rebuilds⟩ := (rebuild_object_iff forgets distinct).1 rebuilt
    -- What is not given is the default.
    have held : ∀ field ∈ declared, ∀ v, Keyed.get? field.1.name kept = some v →
        (∃ old, Keyed.get? field.1.name entries = some old ∧ field.2.rebuild old = some v) ∨
          v = field.1.initial := by
      intro field member v stands
      obtain ⟨w, found, origin⟩ := rebuilds.given_or_initial all member
      obtain rfl := Option.some.inj (found.symm.trans stands)
      exact origin
    refine wellNamed_record.2 ⟨?_, fun field member v stands => ?_⟩
    · refine namesOwnFields_iff.2 fun list listed items stands name text => ?_
      obtain ⟨field, member, rfl⟩ := rebuilds.exists_field stands
      rcases held field member _ stands with ⟨old, there, taken⟩ | initial
      · obtain ⟨⟨own, leads⟩, ordinary⟩ := lists rfl _ old field.2 items listed
          (.field member rfl) there taken name text
        cases leads with
        | field other same =>
          exact ⟨List.mem_map.2 ⟨_, other, (Option.some.inj same).symm⟩, ordinary⟩
      · exact own_of_initial all named member listed initial.symm text
    · rcases held field member v stands with ⟨old, there, taken⟩ | rfl
      · exact each _ old field.2 v (.field member rfl) there taken
      · exact wellNamed_initial all named member
  | _ => simp [Value.whole] at object

end Parts

end Shape

/-- All that a merge takes as one value is well named, part by part, once it is rebuilt. -/
def NamesOwnWholes (root : Shape) (merged : Merged Value) : Prop :=
  ∀ write ∈ merged.journal.writes, ∀ rest part inner settled,
    merged.result.at? (write.path ++ rest) = some part →
      Shape.Leads (write.path ++ rest) root inner → inner.rebuild part = some settled →
        inner.wellNamed settled = true

/-- A merge that takes nothing but scalars takes nothing that lists names. -/
theorem namesOwnWholes_of_scalars {root : Shape} {merged : Merged Value}
    (scalars : ∀ write ∈ merged.journal.writes,
      (merged.result.at? write.path).any Value.isScalar = true) : NamesOwnWholes root merged := by
  intro write member rest part inner settled stands _ rebuilt
  obtain ⟨v, found, scalar⟩ := (Option.any_eq_true ..).1 (scalars write member)
  rw [Value.at?_append, found, Option.bind_some] at stands
  cases rest with
  | nil =>
    obtain rfl := Option.some.inj stands
    exact Shape.wellNamed_of_scalar scalar rebuilt
  | cons segment rest =>
    -- Nothing is behind a scalar.
    cases v <;> cases segment <;>
      simp [Value.isScalar, Value.at?, Value.step?] at scalar stands

section Calls

open Shape MergeCall

variable {root : Shape} {rules : MergeRules} {whole : Merged Value} {candidate : Value}

/-- A destination value at the end of a route, in the mould of its shape and well named. -/
structure NamedAt (root shape : Shape) (path : Path) (there : Value) : Prop where
  leads : Leads path root shape
  moulds : shape.Moulds there
  named : shape.wellNamed there = true

namespace NamedAt

variable {shape : Shape} {path : Path} {there : Value}

theorem blank (named : NamedAt root shape path there) : NamedAt root shape path there.blank :=
  ⟨named.leads, named.moulds.blank, wellNamed_blank named.moulds⟩

/-- A part at the end of a step has the shape that the step leads to. -/
theorem step (named : NamedAt root shape path there) (once : shape.everywhere declaresOnce = true)
    {segment : Segment} {inner : Shape} (step : Step segment shape inner) {part : Value}
    (found : there.step? segment = some part) : NamedAt root inner (path ++ [segment]) part := by
  -- A step leads to one shape only.
  obtain ⟨other, leads, moulds⟩ := named.moulds.step? found
  obtain rfl := step.unique leads (holds_of_everywhere once)
  exact ⟨named.leads.append ⟨_, step, rfl⟩, moulds, wellNamed_step step named.named found⟩

/-- What a call meets is named if what it is made by meets is. -/
theorem makes (named : NamedAt root shape path there) (sound : MapsOf root rules.maps)
    (once : root.everywhere declaresOnce = true) {given : Value} {segment : Segment}
    {next : MergeCall} (makes : Makes rules ⟨there, path, given⟩ segment next) {inner : Shape}
    (step : Step segment shape inner) : NamedAt root inner next.path next.there := by
  have onceHere := named.leads.everywhere once
  have leads : Leads (path ++ [segment]) root inner := named.leads.append ⟨_, step, rfl⟩
  cases makes with
  | field notMap taken found => exact named.step onceHere step found
  | @entry name first others _ _ k v isMap member =>
    -- Entries are merged into the blank of the first entry, which lists nothing.
    have core := sound.isMap (named.leads.follow once) isMap
    have found : (Value.object ((name, first) :: others)).step? (.key name) = some first := by
      simp [Value.step?, Keyed.get?]
    have within := (named.step onceHere (step.key core name) found).blank
    exact ⟨leads, within.moulds, within.named⟩
  | @item first others _ _ i v found =>
    -- So are items into the blank of the first item.
    have found : (Value.array (first :: others)).step? (.index 0) = some first := rfl
    have within := (named.step onceHere (step.index 0) found).blank
    exact ⟨leads, within.moulds, within.named⟩

end NamedAt

variable (steady : root.everywhere isSteady = true)
  (defaults : root.everywhere hasNamedDefault = true)

include steady

/-- What is rebuilt from a destination value or its blank is well named. -/
theorem wellNamed_of_blank {shape : Shape} {path : Path} {there settled : Value}
    (named : NamedAt root shape path there) (formed : there.WellFormed)
    (rebuilt : shape.rebuild there.blank = some settled) : shape.wellNamed settled = true := by
  -- The blank is in the mould of its shape, so it is rebuilt as it is.
  have same := eq_of_moulds (named.leads.everywhere steady) formed.blank named.moulds.blank rebuilt
  rw [same]
  exact named.blank.named

include defaults

/-- What is rebuilt from a value that is taken as one is well named. -/
theorem wellNamed_of_takes (wholes : NamesOwnWholes root whole) (drawn : Drawn whole candidate)
    (formed : candidate.WellFormed) {call : MergeCall} {shape : Shape}
    (named : NamedAt root shape call.path call.there) (sits : Sits rules whole call) {w : Value}
    {reversal : Reversal} (takes : Takes rules call w reversal) {part settled : Value}
    (stands : candidate.at? call.path = some part) (rebuilt : shape.rebuild part = some settled) :
    shape.wellNamed settled = true := by
  have written : ⟨call.path, reversal⟩ ∈ whole.journal.writes :=
    sits.own (takes.merged.2 ▸ List.mem_singleton_self _)
  have steadyHere := named.leads.everywhere steady
  obtain ⟨found, before, back, ends⟩ := sits.of_takes drawn takes
  cases ends with
  | again again =>
    -- What comes again is what was taken, of which this is assumed.
    refine wholes _ written [] part shape settled ?_ ?_ rebuilt
    · rw [List.append_nil, ← again]
      exact stands
    · rw [List.append_nil]
      exact named.leads
  | back stays =>
    -- What is taken back leaves the blank of the destination.
    rw [show candidate.at? call.path = before.at? call.path from stays, back, takes.leaves]
      at stands
    rw [← Option.some.inj stands] at rebuilt
    exact wellNamed_of_blank steady named sits.formed.there rebuilt
  | items isSequence merges kept inside =>
    -- Every item that is kept is an item of what was taken.
    cases takes with
    | items =>
      obtain rfl := Option.some.inj (stands.symm.trans kept)
      refine wellNamed_of_items named.moulds rebuilt fun i item inner settled step held taken => ?_
      obtain ⟨j, found⟩ := List.mem_iff_getElem?.1 (inside.subset (List.mem_of_getElem? held))
      refine wholes _ written [.index j] item inner settled ?_ ?_ taken
      · rw [Value.at?_append, merges, Option.bind_some, Value.at?]
        exact congrArg (Option.bind · _) found
      · exact named.leads.append ⟨_, step.index j, rfl⟩
    | _ => simp at isSequence
  | @entries entries kept isMap merges stays inside =>
    have formedTaken : (Value.object entries).WellFormed := by
      rw [← Option.some.inj (found.symm.trans merges), ← takes.merged.1]
      exact (sits.formed.sound rules).wellFormed
    cases takes with
    | entries =>
      obtain rfl := Option.some.inj (stands.symm.trans stays)
      refine wellNamed_of_entries steadyHere (named.leads.everywhere defaults) named.moulds
        (formed.at? stays) rebuilt (fun name v inner settled step held taken => ?_) ?_
      · have first := Keyed.get?_of_mem formedTaken.distinct (inside (Keyed.mem_of_get? held))
        refine wholes _ written [.field name] v inner settled ?_ ?_ taken
        · rw [Value.at?_append, merges, Option.bind_some, Value.at?]
          exact congrArg (Option.bind · _) first
        · exact named.leads.append ⟨_, step, rfl⟩
      · -- A struct without fields declares no lists.
        intro notMap list v inner items _ step
        exact absurd (named.moulds.mem_of_step steadyHere notMap step) List.not_mem_nil
    | _ => simp at isMap

section Struct

variable {fields given entries : Fields} {path : Path} {shape : Shape}
  (drawn : Drawn whole candidate) (named : NamedAt root shape path (.object fields))
  (sits : Sits rules whole ⟨.object fields, path, .object given⟩) (filled : fields ≠ [])
  (notMap : isMapAt rules.maps path = false)
  (stands : candidate.at? path = some (.object entries))

include drawn named sits filled notMap stands

omit defaults in
/-- What a merged struct does not take is its own, or a list of names of its own. -/
theorem left_of_untaken {name : String} {v : Value} {inner : Shape}
    (step : Step (.field name) shape inner) (held : Keyed.get? name entries = some v)
    (untaken : Keyed.get? name (takenFields rules path given) = none) :
    (NamedAt root inner (path.field name) v ∧ v.WellFormed ∧ Keyed.get? name fields = some v) ∨
      ∃ names, v = .array (keptNames (fields.map (·.1)) names) := by
  have once : shape.everywhere declaresOnce = true :=
    everywhere_mono (fun _ => isSteady.declaresOnce) (named.leads.everywhere steady)
  rw [sits.of_untaken drawn filled notMap stands untaken] at held
  obtain ⟨old, there, rfl⟩ := Option.map_eq_some_iff.1 held
  rcases leftField_cases fields given name old with same | ⟨names, same⟩
  · rw [same]
    exact .inl ⟨named.step once step there, sits.formed.there.of_get? there, there⟩
  · exact .inr ⟨names, same⟩

omit steady defaults in
/-- A new field that is still there is as it was taken, so it is well named with all such values. -/
theorem wellNamed_of_entered (wholes : NamesOwnWholes root whole) {name : String}
    {v w u : Value} {inner : Shape} (step : Step (.field name) shape inner)
    (held : Keyed.get? name entries = some v) (taken : inner.rebuild v = some u)
    (listed : (name, w) ∈ takenFields rules path given)
    (there : Keyed.get? name fields = none) : inner.wellNamed u = true := by
  have struct : Composes rules ⟨.object fields, path, .object given⟩ := .struct filled notMap
  have written := sits.own ((struct.mem_writes sits.formed).2
    (.inr (.field filled notMap listed there)))
  have here : candidate.at? (path.field name) = some v :=
    (Value.at?_concat stands (.field name)).trans held
  obtain ⟨before, back, ends⟩ := drawn.ends _ written
  cases ends with
  | again again =>
    refine wholes _ written [] v inner u ?_ ?_ taken
    · rw [List.append_nil, ← again]
      exact here
    · rw [List.append_nil]
      exact named.leads.append ⟨_, step, rfl⟩
  | back stays =>
    -- Taken back, the field would be gone.
    have gone : some v = none := here.symm.trans (stays.trans back)
    simp at gone
  | items isSequence => simp at isSequence
  | entries isMap => simp at isMap

omit defaults in
/-- The lists of a merged struct name fields of the struct. -/
theorem own_of_merged (isStruct : shape.core.isMap = false) {list : String} {v : Value}
    {inner : Shape} {items : List Value} (listed : isBookkeeping list = true)
    (step : Step (.field list) shape inner) (held : Keyed.get? list entries = some v)
    (taken : inner.rebuild v = some (.array items)) {name : String}
    (text : .string name ∈ items) :
    (∃ own, Step (.field name) shape own) ∧ isBookkeeping name = false := by
  have steadyInner := step.everywhere (named.leads.everywhere steady)
  have untaken : Keyed.get? list (takenFields rules path given) = none := by
    rw [get?_takenFields, MergeRules.skips, listed, Bool.true_or, if_pos rfl]
  rcases left_of_untaken steady drawn named sits filled notMap stands step held untaken with
    ⟨within, formedField, there⟩ | ⟨names, rfl⟩
  · obtain rfl := eq_of_moulds steadyInner formedField within.moulds taken
    exact own_of_wellNamed named.named isStruct listed step there text
  · -- A name that is kept is the name of a field of the destination.
    obtain ⟨texts, same⟩ := exists_keptNames (fields.map (·.1)) names
    rw [same] at taken
    have kept := mem_texts steadyInner taken _ text
    rw [← same] at kept
    obtain ⟨_, equal, known, ordinary⟩ := mem_keptNames kept
    obtain rfl := Value.string.inj equal
    obtain ⟨entry, member, rfl⟩ := List.mem_map.1 known
    have there := Keyed.get?_of_mem sits.formed.there.distinct member
    have found : (Value.object fields).step? (.field entry.1) = some entry.2 := there
    obtain ⟨own, leads, _⟩ := named.moulds.step? found
    exact ⟨⟨own, leads⟩, ordinary⟩

/-- What is rebuilt from a merged struct is well named if its merged fields are. -/
theorem wellNamed_of_struct (wholes : NamesOwnWholes root whole) (formed : candidate.WellFormed)
    {settled : Value} (rebuilt : shape.rebuild (.object entries) = some settled)
    (inside : ∀ name next inner v u,
      Makes rules ⟨.object fields, path, .object given⟩ (.field name) next →
        Step (.field name) shape inner → Keyed.get? name entries = some v →
          inner.rebuild v = some u → inner.wellNamed u = true) :
    shape.wellNamed settled = true := by
  have steadyHere := named.leads.everywhere steady
  have defaultsHere := named.leads.everywhere defaults
  refine wellNamed_of_entries steadyHere defaultsHere named.moulds (formed.at? stands) rebuilt
    (fun name v inner u step held taken => ?_)
    fun isStruct list v inner items listed step held taken name text => ?_
  · cases source : Keyed.get? name (takenFields rules path given) with
    | none =>
      -- A field of its own is rebuilt as it is, and a list of names is no struct.
      rcases left_of_untaken steady drawn named sits filled notMap stands step held source with
        ⟨within, formedField, _⟩ | ⟨names, rfl⟩
      · rw [eq_of_moulds (step.everywhere steadyHere) formedField within.moulds taken]
        exact within.named
      · obtain ⟨texts, same⟩ := exists_keptNames (fields.map (·.1)) names
        rw [same] at taken
        exact wellNamed_of_texts (step.everywhere steadyHere) (step.everywhere defaultsHere) taken
    | some w =>
      have listed := Keyed.mem_of_get? source
      cases there : Keyed.get? name fields with
      | some old => exact inside name _ inner v u (.field notMap listed there) step held taken
      | none =>
        exact wellNamed_of_entered drawn named sits filled notMap stands wholes step held taken
          listed there
  · exact own_of_merged steady drawn named sits filled notMap stands isStruct listed step held
      taken text

end Struct

/-- What is rebuilt at the place of a call is well named. -/
theorem wellNamed_of_call (sound : MapsOf root rules.maps) (wholes : NamesOwnWholes root whole)
    (drawn : Drawn whole candidate) (formed : candidate.WellFormed) {call : MergeCall}
    (formedCall : call.Formed) : ∀ shape, NamedAt root shape call.path call.there →
      Sits rules whole call → ∀ part settled, candidate.at? call.path = some part →
        shape.rebuild part = some settled → shape.wellNamed settled = true := by
  have once : root.everywhere declaresOnce = true :=
    everywhere_mono (fun _ => isSteady.declaresOnce) steady
  refine MergeCall.inductionOn rules (motive := fun call => ∀ shape,
    NamedAt root shape call.path call.there → Sits rules whole call → ∀ part settled,
      candidate.at? call.path = some part → shape.rebuild part = some settled →
        shape.wellNamed settled = true) formedCall ?_
  intro call formedCall ih shape named sits part settled stands rebuilt
  have steadyHere := named.leads.everywhere steady
  -- A call takes its source as one value, or resets the destination, or goes on inside it.
  rcases call.cases rules with ⟨w, reversal, takes⟩ | resets | composes
  · exact wellNamed_of_takes steady defaults wholes drawn formed named sits takes stands rebuilt
  · rw [← Option.some.inj ((sits.of_resets drawn resets).symm.trans stands)] at rebuilt
    exact wellNamed_of_blank steady named sits.formed.there rebuilt
  · obtain ⟨other, standsToo, isArray, isObject⟩ := sits.exists_part drawn composes
    obtain rfl := Option.some.inj (stands.symm.trans standsToo)
    -- A part behind a step for which there is a call is what the call leaves there.
    have inside : ∀ segment next inner v u, Makes rules call segment next →
        Step segment shape inner → part.step? segment = some v → inner.rebuild v = some u →
        inner.wellNamed u = true := by
      intro segment next inner v u makes step found taken
      refine ih segment next makes inner (named.makes sound once makes step) (sits.makes makes) v u
        ?_ taken
      rw [makes.path_eq, Value.at?_concat stands, found]
    cases composes with
    | sequence filled =>
      cases part with
      | array items =>
        refine wellNamed_of_items named.moulds rebuilt fun i item inner u step held taken => ?_
        have found : (Value.array items).step? (.index i) = some item := held
        obtain ⟨_, leads⟩ := sits.exists_step? drawn (.sequence filled) stands found
        obtain ⟨next, makes⟩ := exists_makes_item filled leads
        exact inside (.index i) next inner item u makes step held taken
      | _ => simp [Value.isArray] at isArray
    | map filled isMap =>
      cases part with
      | object entries =>
        have core := sound.isMap (named.leads.follow once) isMap
        refine wellNamed_of_entries steadyHere (named.leads.everywhere defaults) named.moulds
          (formed.at? stands) rebuilt (fun name v inner u step held taken => ?_) fun notMap => ?_
        · have found : (Value.object entries).step? (.field name) = some v := held
          obtain ⟨_, leads⟩ := sits.exists_step? drawn (.map filled isMap) stands found
          obtain ⟨next, makes⟩ := exists_makes_entry filled isMap leads
          exact inside (.key name) next inner v u makes (step.of_bare_eq rfl) held taken
        · simp [core] at notMap
      | _ => simp [Value.isObject] at isObject
    | struct filled notMap =>
      cases part with
      | object entries =>
        exact wellNamed_of_struct steady defaults drawn named sits filled notMap stands wholes
          formed rebuilt fun name next inner v u => inside (.field name) next inner v u
      | _ => simp [Value.isObject] at isObject

end Calls

namespace Transfer

open Shape

variable {σ δ : Type} {source : Codec σ} {codec : Codec δ} {rule : RecordRule}
  {declared : List (FieldRule × Shape)}

/-- The values that a copy of one written struct into another takes as one. -/
def TakesNamed (exclusions : Exclusions) (codec : Codec δ) (root : Shape) :
    Value → Value → Prop
  | .object fields, .object given =>
    NamesOwnWholes root ((merge exclusions codec fields given).map .object)
  | _, _ => True

/--
A copy into a well-named destination leaves it well named.

This is so as long as whatever the copy takes as one value is well named in the destination type:
only where two structs meet are names left out that the destination does not know.
-/
theorem copy_keeps_names (follows : codec.Follows (.record rule declared))
    (steady : (Shape.record rule declared).everywhere isSteady = true)
    (defaults : (Shape.record rule declared).everywhere hasNamedDefault = true)
    (exclusions : Exclusions) {src : σ} {dest new : δ} {there given : Value}
    (restores : codec.Restores dest there)
    (named : (Shape.record rule declared).wellNamed there = true)
    (written : source.encode src = .ok given) (formed : given.WellFormed)
    (wholes : TakesNamed exclusions codec (.record rule declared) there given)
    {losses : List Loss} (copied : copy exclusions source codec src dest = ⟨.ok new, losses⟩) :
    ∃ settled, codec.encode new = .ok settled ∧
      (Shape.record rule declared).wellNamed settled = true := by
  obtain ⟨given, fields, whole, lost, settled, maps, encoded, encodedThere, chosen, rebuilt, again,
    _⟩ := copy_eq_ok copied
  obtain rfl := Except.ok.inj (encoded.symm.trans written)
  obtain rfl := Except.ok.inj (encodedThere.symm.trans restores.written)
  refine ⟨settled, again, ?_⟩
  have fixed := restores.fixed follows
  have formedThere := restores.wellFormed
  have anchored := anchored_of_steady steady
  have moulds := moulds_of_rebuild anchored formedThere fixed
  have rebuiltWhole : (Shape.record rule declared).rebuild whole = some settled := by
    rw [← follows]
    exact roundTrip_eq_some.2 ⟨_, rebuilt, again⟩
  obtain ⟨_, _, formedWhole, _⟩ := candidate_settled formedThere formed chosen rebuilt
  have drawn := drawn_candidate formedThere formed chosen rebuilt
  have sound : MapsOf (.record rule declared) (mapPaths codec.roundTrip fields) := by
    rw [funext follows]
    exact follow_of_mem_mapPaths anchored formedThere fixed
  by_cases filled : fields = []
  · -- A struct without fields has no lists either.
    subst filled
    have none : declared = [] := List.eq_nil_iff_forall_not_mem.2 fun field member =>
      List.not_mem_nil (moulds.mem_of_step steady rfl (.field member rfl))
    exact wellNamed_of_empty none rebuiltWhole (writesAll_iff.1 (everywhere_record.1 steady).1).1
  · have sits := sits_merge exclusions codec formedThere formed filled
    exact wellNamed_of_call steady defaults sound wholes drawn formedWhole sits.formed _
      ⟨rfl, moulds, named⟩ sits whole settled rfl rebuiltWhole

/-- A service that lists a field of its own and one of another version, at two levels. -/
private def rolledOut : Value :=
  .object [("Backend", .object [("Address", .string "a"),
      ("NullFields", .strings ["Port", "Zone"]), ("Zone", .string "z")]),
    ("ForceSendFields", .strings ["Rollout", "Description"]), ("Name", .string "vip"),
    ("Ports", .array [.whole 80]), ("Rollout", .string "fast")]

/-- A stable service that has a backend and a port, and lists nothing. -/
private def balanced : Value :=
  .object [("Backend", .object [("Address", .string "b"), ("ForceSendFields", .strings []),
      ("NullFields", .strings []), ("Port", .whole 1)]),
    ("Description", .string ""), ("ForceSendFields", .strings []), ("LegacyMode", .string ""),
    ("Name", .string "old"), ("NullFields", .strings []), ("Ports", .array [.whole 1]),
    ("SelfLink", .string "")]

/-- The stable service after that copy. -/
private def balancedAnew : Value :=
  .object [("Backend", .object [("Address", .string "a"), ("ForceSendFields", .strings []),
      ("NullFields", .strings ["Port"]), ("Port", .whole 1)]),
    ("Description", .string ""), ("ForceSendFields", .strings ["Description"]),
    ("LegacyMode", .string ""), ("Name", .string "vip"), ("NullFields", .strings []),
    ("Ports", .array [.whole 80]), ("SelfLink", .string "")]

/-- Where both sides have a backend, the names that the destination does not know are left out. -/
theorem copy_keeps_names_of_backends : ∃ losses settled,
    copy .none (Shape.any.codec "Value") (Catalog.stableService.codec "StableService") rolledOut
      balanced = ⟨.ok balancedAnew, losses⟩ ∧
    (Catalog.stableService.codec "StableService").encode balancedAnew = .ok settled ∧
    Catalog.stableService.wellNamed settled = true := by
  have yields : (copy .none (Shape.any.codec "Value")
      (Catalog.stableService.codec "StableService") rolledOut balanced).result.toOption =
        some balancedAnew := by decide +kernel
  have copied := outcome_of_toOption yields
  have restores : (Catalog.stableService.codec "StableService").Restores balanced balanced :=
    ⟨rfl, by rfl, by decide⟩
  have encoded : (Shape.any.codec "Value").encode rolledOut = .ok rolledOut := rfl
  obtain ⟨settled, written, named⟩ := copy_keeps_names
    (Shape.follows_codec "StableService" Catalog.stableService) (by decide) (by decide) .none
    restores (by decide) encoded (by decide) (namesOwnWholes_of_scalars (by decide +kernel)) copied
  exact ⟨_, settled, copied, written, named⟩

/-- A service whose backend has a zone. -/
private def zonedService : Shape :=
  struct [field "Backend" (.optional (struct (field "Zone" .string :: Catalog.lists)))]

/-- A service that lists the zone of its backend. -/
private def zoned : Value :=
  .object [("Backend", .object [("ForceSendFields", .strings []),
    ("NullFields", .strings ["Zone"]), ("Zone", .string "z")])]

/-- The stable service that is made of it: its backend has no zone, but lists one. -/
private def unzoned : Value :=
  .object [("Backend", .object [("Address", .string ""), ("ForceSendFields", .strings []),
      ("NullFields", .strings ["Zone"]), ("Port", .whole 0)]),
    ("Description", .string ""), ("ForceSendFields", .strings []), ("LegacyMode", .string ""),
    ("Name", .string ""), ("NullFields", .strings []), ("Ports", .array []),
    ("SelfLink", .string "")]

/-- Not every copy keeps names: a struct that takes the place of null brings its lists along. -/
theorem not_every_copy_keeps_names :
    ¬ ∀ (σ δ : Type) (exclusions : Exclusions) (source : Codec σ) (codec : Codec δ)
        (sourceShape : Shape) (rule : RecordRule) (declared : List (FieldRule × Shape)),
      source.Follows sourceShape → codec.Follows (.record rule declared) →
      sourceShape.everywhere isSteady = true →
      (Shape.record rule declared).everywhere isSteady = true →
      ∀ (src : σ) (dest new : δ) (there given : Value) (losses : List Loss),
        codec.Restores dest there → (Shape.record rule declared).wellNamed there = true →
        source.Restores src given → sourceShape.wellNamed given = true →
        copy exclusions source codec src dest = ⟨.ok new, losses⟩ →
        ∃ settled, codec.encode new = .ok settled ∧
          (Shape.record rule declared).wellNamed settled = true := by
  intro always
  have yields : (copy .none (zonedService.codec "Service")
      (Catalog.stableService.codec "StableService") zoned
        Catalog.stableService.initial).result.toOption = some unzoned := by decide +kernel
  obtain ⟨settled, written, named⟩ := always Value Value .none (zonedService.codec "Service")
    (Catalog.stableService.codec "StableService") zonedService _ _
    (Shape.follows_codec "Service" zonedService)
    (Shape.follows_codec "StableService" Catalog.stableService) (by decide) (by decide) zoned
    Catalog.stableService.initial unzoned Catalog.stableService.initial zoned _
    ⟨rfl, by rfl, by decide⟩ (by decide) ⟨rfl, by rfl, by decide⟩ (by decide)
    (outcome_of_toOption yields)
  obtain rfl := Except.ok.inj written
  -- The zone is no field of the new backend.
  have unnamed : Catalog.stableService.wellNamed unzoned = false := by decide
  exact Bool.false_ne_true (unnamed.symm.trans named)

end Transfer

end Triversion
