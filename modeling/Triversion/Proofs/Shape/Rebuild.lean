import Triversion.Proofs.Value.At
import Triversion.Shape.Basic

/-!
What a shape rebuilds, part by part.

Sequences and maps are rebuilt item by item and entry by entry. A record is rebuilt field by field,
from what is given under the names it declares.
-/

namespace Triversion

section Options

variable {α β : Type}

/-- All items pass a partial function exactly if each one does. -/
theorem mapM_eq_some_iff_map {f : α → Option β} {items : List α} {results : List β} :
    items.mapM f = some results ↔ items.map f = results.map some := by
  -- The first item has to pass, and the rest has to do so on its own.
  induction items generalizing results with
  | nil => cases results <;> simp
  | cons first rest ih =>
    cases results with
    | nil => simp [List.mapM_cons, Option.bind_eq_some_iff]
    | cons result results => simp [List.mapM_cons, Option.bind_eq_some_iff, ih]

/-- Items have results if each of them passes. -/
theorem mapM_isSome_iff {f : α → Option β} {items : List α} :
    (items.mapM f).isSome = true ↔ ∀ item ∈ items, (f item).isSome = true := by
  induction items with
  | nil => simp
  | cons item rest ih =>
    rw [List.forall_mem_cons, ← ih, List.mapM_cons]
    cases f item with
    | none => simp
    | some v => cases rest.mapM f <;> simp

/-- Items that all pass have results one by one. -/
theorem getElem?_of_mapM {f : α → Option β} {items : List α} {results : List β}
    (passed : items.mapM f = some results) (i : Nat) : items[i]?.map f = results[i]?.map some := by
  have same := mapM_eq_some_iff_map.1 passed
  rw [← List.getElem?_map, ← List.getElem?_map, same]

/-- The result at a position is that of the item there. -/
theorem exists_getElem?_of_mapM {f : α → Option β} {items : List α} {results : List β}
    (passed : items.mapM f = some results) {i : Nat} {result : β}
    (found : results[i]? = some result) : ∃ item, items[i]? = some item ∧ f item = some result := by
  have same := getElem?_of_mapM passed i
  rw [found] at same
  exact Option.map_eq_some_iff.1 same

/-- Every result is that of an item. -/
theorem exists_mem_of_mapM {f : α → Option β} {items : List α} {results : List β}
    (passed : items.mapM f = some results) {result : β} (member : result ∈ results) :
    ∃ item ∈ items, f item = some result := by
  obtain ⟨i, found⟩ := List.mem_iff_getElem?.1 member
  obtain ⟨item, held, taken⟩ := exists_getElem?_of_mapM passed found
  exact ⟨item, List.mem_of_getElem? held, taken⟩

/-- Items that all pass are as many as their results. -/
theorem length_of_mapM {f : α → Option β} {items : List α} {results : List β}
    (passed : items.mapM f = some results) : items.length = results.length := by
  simpa using congrArg List.length (mapM_eq_some_iff_map.1 passed)

/-- Items that pass unchanged but for one pass as that one does. -/
theorem mapM_modify {f : α → Option α} {items : List α} {i : Nat} {part : α}
    (fixed : ∀ item ∈ items, f item = some item) (held : items[i]? = some part) (g : α → α) :
    (items.modify i g).mapM f = (f (g part)).map fun new => items.modify i fun _ => new := by
  induction items generalizing i with
  | nil => simp at held
  | cons first rest ih =>
    obtain ⟨fixedFirst, fixed⟩ := List.forall_mem_cons.1 fixed
    cases i with
    | zero =>
      obtain rfl : first = part := by simpa using held
      have passed := mapM_eq_some_iff_map.2 (List.map_congr_left fixed)
      cases changed : f (g first) <;> simp [List.mapM_cons, passed, changed]
    | succ i =>
      have passed := ih fixed (by simpa using held)
      cases changed : f (g part) <;> simp [List.mapM_cons, fixedFirst, passed, changed]

end Options

namespace Shape

/-- A shape is simple, or it is built from the shapes of its parts. -/
@[elab_as_elim]
theorem inductionOn {motive : Shape → Prop} (shape : Shape) (bool : motive .bool)
    (string : motive .string) (integer : ∀ low high, motive (.integer low high))
    (float : motive .float) (unit : motive .unit) (any : motive .any)
    (choice : ∀ words, motive (.choice words))
    (optional : ∀ shape, motive shape → motive (.optional shape))
    (list : ∀ shape, motive shape → motive (.list shape))
    (map : ∀ decimalKeys shape, motive shape → motive (.map decimalKeys shape))
    (tuple : ∀ shapes, (∀ shape ∈ shapes, motive shape) → motive (.tuple shapes))
    (record : ∀ rule fields, (∀ field ∈ fields, motive field.2) → motive (.record rule fields)) :
    motive shape :=
  -- The nested lists are walked beside the shapes in them.
  @Shape.rec motive (fun shapes => ∀ shape ∈ shapes, motive shape)
    (fun fields => ∀ field ∈ fields, motive field.2) (fun field => motive field.2)
    bool string integer float unit any choice optional list map tuple record
    (fun _ member => absurd member List.not_mem_nil)
    (fun _ _ first rest => List.forall_mem_cons.2 ⟨first, rest⟩)
    (fun _ member => absurd member List.not_mem_nil)
    (fun _ _ first rest => List.forall_mem_cons.2 ⟨first, rest⟩)
    (fun _ _ second => second) shape

/-- The names that a record declares. -/
def names (fields : List (FieldRule × Shape)) : List String :=
  fields.map fun field => field.1.name

/-- What a record rebuilds for one of its fields. -/
def declaredValue (rule : RecordRule) (given : Fields) (field : FieldRule × Shape) :
    Option Value :=
  match field.1.pinned with
  | some pinned => some pinned
  | none =>
    match Keyed.get? field.1.name given with
    | some v => field.2.rebuild v
    | none => if rule.missing = .initial then some field.1.initial else none

/-- The first declared field is rebuilt on its own, before the others. -/
theorem rebuildNamed_cons (rule : RecordRule) (field : FieldRule × Shape)
    (fields : List (FieldRule × Shape)) (given : Fields) :
    rebuildNamed rule (field :: fields) given = (declaredValue rule given field).bind fun v =>
      (rebuildNamed rule fields given).map fun rest => field.1.entry v ++ rest := by
  obtain ⟨field, shape⟩ := field
  rw [rebuildNamed, declaredValue]
  cases field.pinned with
  | some pinned => cases rebuildNamed rule fields given <;> rfl
  | none =>
    cases Keyed.get? field.name given with
    | some v =>
      cases rebuild shape v <;> cases rebuildNamed rule fields given <;> rfl
    | none =>
      cases rule.missing <;> cases rebuildNamed rule fields given <;> rfl

section Named

variable {rule : RecordRule} {fields : List (FieldRule × Shape)} {given declared : Fields}

/-- The declared fields can be rebuilt if each of them can. -/
theorem rebuildNamed_isSome (each : ∀ field ∈ fields, (declaredValue rule given field).isSome) :
    ∃ declared, rebuildNamed rule fields given = some declared := by
  induction fields with
  | nil => exact ⟨[], by rw [rebuildNamed]⟩
  | cons field rest ih =>
    obtain ⟨first, later⟩ := List.forall_mem_cons.1 each
    obtain ⟨v, found⟩ := Option.isSome_iff_exists.1 first
    obtain ⟨declared, rebuilt⟩ := ih later
    exact ⟨_, by rw [rebuildNamed_cons, found, rebuilt]; rfl⟩

/-- What is rebuilt has declared names, in the order of the declarations. -/
theorem names_of_rebuildNamed (rebuilt : rebuildNamed rule fields given = some declared) :
    (declared.map (·.1)).Sublist (names fields) := by
  induction fields generalizing declared with
  | nil =>
    rw [rebuildNamed] at rebuilt
    simp [← Option.some.inj rebuilt]
  | cons field rest ih =>
    rw [rebuildNamed_cons] at rebuilt
    obtain ⟨v, found, rebuilt⟩ := Option.bind_eq_some_iff.1 rebuilt
    obtain ⟨others, later, rfl⟩ := Option.map_eq_some_iff.1 rebuilt
    rw [FieldRule.entry]
    -- A field that is left out takes its name with it.
    split
    · exact (ih later).cons_cons _
    · exact (ih later).cons _

/-- Each declared field is found as it is rebuilt, unless it is left out. -/
theorem get?_of_rebuildNamed (distinct : (names fields).Nodup)
    (rebuilt : rebuildNamed rule fields given = some declared) :
    ∀ field ∈ fields, ∃ v, declaredValue rule given field = some v ∧
      Keyed.get? field.1.name declared = if field.1.keeps v then some v else none := by
  induction fields generalizing declared with
  | nil => simp
  | cons first rest ih =>
    obtain ⟨fresh, distinct⟩ := List.nodup_cons.1 distinct
    rw [rebuildNamed_cons] at rebuilt
    obtain ⟨v, found, rebuilt⟩ := Option.bind_eq_some_iff.1 rebuilt
    obtain ⟨others, later, rfl⟩ := Option.map_eq_some_iff.1 rebuilt
    refine List.forall_mem_cons.2 ⟨⟨v, found, ?_⟩, fun field member => ?_⟩
    · -- No later field has the name of the first one.
      have absent : Keyed.get? first.1.name others = none :=
        Keyed.get?_eq_none_iff.2 fun listed => fresh ((names_of_rebuildNamed later).subset listed)
      cases keeps : first.1.keeps v <;> simp [FieldRule.entry, keeps, Keyed.get?, absent]
    · obtain ⟨w, foundLater, kept⟩ := ih distinct later field member
      refine ⟨w, foundLater, ?_⟩
      have different : first.1.name ≠ field.1.name := by
        intro same
        exact fresh (List.mem_map.2 ⟨field, member, same.symm⟩)
      rw [← kept]
      cases keeps : first.1.keeps v <;> simp [FieldRule.entry, keeps, Keyed.get?, different]

/-- A record that is given a sequence holds its fields in order, each rebuilt or as it begins. -/
theorem mem_of_rebuildPositions
    (written : ∀ field ∈ fields, field.1.omission = .never ∧ field.1.pinned = none)
    {items : List Value} {result : Fields}
    (rebuilt : rebuildPositions rule fields items = some result) :
    result.map (·.1) = names fields ∧ ∀ entry ∈ result, ∃ field ∈ fields,
      entry.1 = field.1.name ∧
        (entry.2 = field.1.initial ∨ ∃ item ∈ items, field.2.rebuild item = some entry.2) := by
  induction fields generalizing items result with
  | nil =>
    rw [rebuildPositions] at rebuilt
    split at rebuilt
    · obtain rfl := Option.some.inj rebuilt
      exact ⟨rfl, by simp⟩
    · simp at rebuilt
  | cons field rest ih =>
    obtain ⟨field, shape⟩ := field
    obtain ⟨⟨never, unpinned⟩, written⟩ := List.forall_mem_cons.1 written
    have unpinned : field.pinned = none := unpinned
    have entry : ∀ v, field.entry v = [(field.name, v)] := by
      intro v
      rw [FieldRule.entry, FieldRule.keeps, never, if_pos rfl]
    -- The later fields are read from what is left of the items.
    have later : ∀ {left : List Value} {v : Value} {others : Fields}, left ⊆ items →
        rebuildPositions rule rest left = some others →
        (v = field.initial ∨ ∃ item ∈ items, shape.rebuild item = some v) →
        field.entry v ++ others = result → result.map (·.1) = names ((field, shape) :: rest) ∧
          ∀ entry ∈ result, ∃ other ∈ (field, shape) :: rest, entry.1 = other.1.name ∧
            (entry.2 = other.1.initial ∨
              ∃ item ∈ items, other.2.rebuild item = some entry.2) := by
      rintro left v others inside behind held rfl
      obtain ⟨keys, each⟩ := ih written behind
      rw [entry]
      refine ⟨congrArg (field.name :: ·) keys, List.forall_mem_cons.2 ⟨?_, fun entry listed => ?_⟩⟩
      · exact ⟨(field, shape), List.mem_cons_self, rfl, held⟩
      · obtain ⟨other, member, named, held⟩ := each entry listed
        refine ⟨other, List.mem_cons_of_mem _ member, named, held.imp_right ?_⟩
        exact fun ⟨item, given, rebuilt⟩ => ⟨item, inside given, rebuilt⟩
    cases items with
    | nil =>
      simp only [rebuildPositions, unpinned] at rebuilt
      split at rebuilt
      · obtain ⟨others, behind, same⟩ := Option.bind_eq_some_iff.1 rebuilt
        exact later (List.Subset.refl _) behind (.inl rfl) (Option.some.inj same)
      · simp at rebuilt
    | cons item items =>
      simp only [rebuildPositions, unpinned] at rebuilt
      obtain ⟨v, first, rebuilt⟩ := Option.bind_eq_some_iff.1 rebuilt
      obtain ⟨others, behind, same⟩ := Option.bind_eq_some_iff.1 rebuilt
      exact later (List.subset_cons_self _ _) behind (.inr ⟨item, List.mem_cons_self, first⟩)
        (Option.some.inj same)

end Named

/--
How an object is rebuilt as a record.

A record that refuses unknown names is given none, and every declared field stands under its name
as it is rebuilt, unless it is left out.
-/
structure Rebuilds (rule : RecordRule) (fields : List (FieldRule × Shape)) (given kept : Fields) :
    Prop where
  admitted : rule.unknown = .rejected → undeclared fields given = []
  sorted : Keyed.Ascending kept
  declared : ∀ name, name ∉ names fields → Keyed.get? name kept = none
  each : ∀ field ∈ fields, ∃ v, declaredValue rule given field = some v ∧
    Keyed.get? field.1.name kept = if field.1.keeps v then some v else none

/-- A record that keeps no unknown names rebuilds an object from its declared fields alone. -/
theorem rebuild_object_iff {rule : RecordRule} {fields : List (FieldRule × Shape)}
    {given : Fields} {w : Value} (forgets : rule.unknown ≠ .kept)
    (distinct : (names fields).Nodup) :
    (Shape.record rule fields).rebuild (.object given) = some w ↔
      ∃ kept, w = .object kept ∧ Rebuilds rule fields given kept := by
  simp only [rebuild, List.isEmpty_iff]
  -- Whatever is rebuilt is stored in the order of its names.
  have stored : ∀ declared, rebuildNamed rule fields given = some declared →
      (rule.unknown = .rejected → undeclared fields given = []) →
      Rebuilds rule fields given (Keyed.ofList declared) := by
    intro declared rebuilt admitted
    have inside := names_of_rebuildNamed rebuilt
    have found := Keyed.get?_ofList (distinct.sublist inside)
    refine ⟨admitted, Keyed.ascending_ofList declared, fun name unknown => ?_,
      fun field member => ?_⟩
    · rw [found]
      exact Keyed.get?_eq_none_iff.2 fun listed => unknown (inside.subset listed)
    · rw [found]
      exact get?_of_rebuildNamed distinct rebuilt field member
  constructor
  · intro rebuilt
    split at rebuilt
    · simp at rebuilt
    · next passes =>
      obtain ⟨declared, named, rfl⟩ := Option.map_eq_some_iff.1 rebuilt
      exact ⟨_, rfl, stored declared named fun rejects =>
        Classical.not_not.1 fun others => passes ⟨rejects, others⟩⟩
  · rintro ⟨kept, rfl, rebuilds⟩
    rw [if_neg fun refused => refused.2 (rebuilds.admitted refused.1)]
    obtain ⟨declared, rebuilt⟩ : ∃ declared, rebuildNamed rule fields given = some declared := by
      refine rebuildNamed_isSome fun field member => ?_
      obtain ⟨v, found, _⟩ := rebuilds.each field member
      simp [found]
    have same := stored declared rebuilt rebuilds.admitted
    rw [rebuilt, Option.map_some, if_neg forgets, List.nil_append, Value.ofFields]
    -- Both lists ascend, and every name finds the same in them.
    refine congrArg (some ∘ Value.object) (same.sorted.ext rebuilds.sorted fun name => ?_)
    by_cases known : name ∈ names fields
    · obtain ⟨field, member, rfl⟩ := List.mem_map.1 known
      obtain ⟨v, found, first⟩ := same.each field member
      obtain ⟨w, foundAgain, second⟩ := rebuilds.each field member
      obtain rfl : v = w := Option.some.inj (found.symm.trans foundAgain)
      rw [first, second]
    · rw [same.declared name known, rebuilds.declared name known]

/-- What a record rebuilds as it is is an object. -/
theorem rebuilds_of_fixed {rule : RecordRule} {fields : List (FieldRule × Shape)} {v : Value}
    (forgets : rule.unknown ≠ .kept) (distinct : (names fields).Nodup)
    (fixed : (Shape.record rule fields).rebuild v = some v) :
    ∃ given, v = .object given ∧ Rebuilds rule fields given given := by
  cases v with
  | object given =>
    obtain ⟨kept, same, rebuilds⟩ := (rebuild_object_iff forgets distinct).1 fixed
    obtain rfl := Value.object.inj same
    exact ⟨_, rfl, rebuilds⟩
  | array items =>
    -- Even what is given as a sequence is written as an object.
    simp only [rebuild] at fixed
    split at fixed
    · obtain ⟨_, _, same⟩ := Option.map_eq_some_iff.1 fixed
      simp [Value.ofFields] at same
    · simp at fixed
  | _ => simp [rebuild] at fixed

/-- Which names are unknown is decided by the names alone. -/
theorem undeclared_eq_nil_iff {fields : List (FieldRule × Shape)} {given : Fields}
    (read : ∀ field ∈ fields, field.1.pinned = none) :
    undeclared fields given = [] ↔ ∀ name ∈ given.map (·.1), name ∈ names fields := by
  rw [undeclared, List.filter_eq_nil_iff, List.forall_mem_map]
  refine forall_congr' fun entry => forall_congr' fun _ => ?_
  simp only [Bool.not_eq_true', Bool.not_eq_false, List.any_eq_true, Bool.and_eq_true,
    decide_eq_true_eq, Option.isNone_iff_eq_none, names, List.mem_map]
  constructor
  · rintro ⟨field, member, same, _⟩
    exact ⟨field, member, same⟩
  · rintro ⟨field, member, same⟩
    exact ⟨field, member, same, read field member⟩

/-- A name is declared once, so it belongs to one field. -/
theorem eq_of_names {fields : List (FieldRule × Shape)} (distinct : (names fields).Nodup)
    {field other : FieldRule × Shape} (member : field ∈ fields) (another : other ∈ fields)
    (same : field.1.name = other.1.name) : field = other := by
  induction fields with
  | nil => simp at member
  | cons first rest ih =>
    obtain ⟨fresh, distinct⟩ := List.nodup_cons.1 distinct
    rcases List.mem_cons.1 member with rfl | later <;>
      rcases List.mem_cons.1 another with rfl | otherLater
    · rfl
    · exact (fresh (List.mem_map.2 ⟨other, otherLater, same.symm⟩)).elim
    · exact (fresh (List.mem_map.2 ⟨field, later, same⟩)).elim
    · exact ih distinct later otherLater

/-- Put in order, the fields that are given by position are the declared ones. -/
theorem get?_of_rebuildPositions {rule : RecordRule} {fields : List (FieldRule × Shape)}
    (distinct : (names fields).Nodup)
    (written : ∀ field ∈ fields, field.1.omission = .never ∧ field.1.pinned = none)
    {items : List Value} {result : Fields}
    (rebuilt : rebuildPositions rule fields items = some result) :
    (∀ name, name ∉ names fields → Keyed.get? name (Keyed.ofList result) = none) ∧
      ∀ field ∈ fields, ∃ v, Keyed.get? field.1.name (Keyed.ofList result) = some v ∧
        ((∃ item ∈ items, field.2.rebuild item = some v) ∨ v = field.1.initial) := by
  obtain ⟨keys, each⟩ := mem_of_rebuildPositions written rebuilt
  -- Every declared name is given once, so what is given under it is found again.
  have found := fun name => Keyed.get?_ofList (keys ▸ distinct) name
  refine ⟨fun name unknown => ?_, fun field member => ?_⟩
  · rw [found]
    exact Keyed.get?_eq_none_iff.2 fun listed => unknown (keys ▸ listed)
  · have listed : field.1.name ∈ result.map (·.1) := keys ▸ List.mem_map_of_mem member
    obtain ⟨v, stands⟩ := Option.ne_none_iff_exists'.1 fun missing =>
      Keyed.get?_eq_none_iff.1 missing listed
    refine ⟨v, (found _).trans stands, ?_⟩
    obtain ⟨other, another, same, origin⟩ := each _ (Keyed.mem_of_get? stands)
    obtain rfl := eq_of_names distinct member another same
    exact origin.symm

/-- Whether a shape is that of a list of names. -/
def isNameList : Shape → Bool
  | .list .string => true
  | _ => false

/-- Texts are a list of names. -/
theorem rebuild_strings {shape : Shape} (isList : shape.isNameList = true) (texts : List String) :
    shape.rebuild (Value.strings texts) = some (Value.strings texts) := by
  unfold isNameList at isList
  split at isList
  · have kept : (texts.map Value.string).mapM (fun item => Shape.string.rebuild item) =
        some (texts.map Value.string) :=
      mapM_eq_some_iff_map.2 (List.map_inj_left.2 (List.forall_mem_map.2 fun _ _ => rfl))
    rw [Value.strings, rebuild, kept, Option.map_some]
  · simp at isList

/-- A list of names is rebuilt as it is, and holds texts only. -/
theorem exists_strings {shape : Shape} (isList : shape.isNameList = true) {v w : Value}
    (rebuilt : shape.rebuild v = some w) : w = v ∧ ∃ texts, v = Value.strings texts := by
  suffices isStrings : ∃ texts, v = Value.strings texts by
    obtain ⟨texts, rfl⟩ := isStrings
    exact ⟨Option.some.inj (rebuilt.symm.trans (rebuild_strings isList texts)), texts, rfl⟩
  unfold isNameList at isList
  split at isList
  · cases v with
    | array items =>
      obtain ⟨results, passed, _⟩ := Option.map_eq_some_iff.1 (by rwa [rebuild] at rebuilt)
      obtain ⟨texts, rfl⟩ : ∃ texts : List String, items = texts.map .string := by
        refine Value.exists_texts fun item member => ?_
        obtain ⟨i, found⟩ := List.mem_iff_getElem?.1 member
        have same := getElem?_of_mapM passed i
        rw [found] at same
        obtain ⟨_, _, taken⟩ := Option.map_eq_some_iff.1 same.symm
        cases item with
        | string text => exact ⟨text, rfl⟩
        | _ => simp [rebuild] at taken
      exact ⟨texts, rfl⟩
    | _ => simp [rebuild] at rebuilt
  · simp at isList

end Shape

/-- A type that accepts what a shape accepts, and writes again what the shape writes again. -/
def Codec.Follows {α : Type} (codec : Codec α) (shape : Shape) : Prop :=
  ∀ v, codec.roundTrip v = shape.rebuild v

/-- A representation that is rebuilt from the value it is written as. -/
structure Codec.Restores {α : Type} (codec : Codec α) (x : α) (v : Value) : Prop where
  written : codec.encode x = .ok v
  rebuilt : codec.decode v = some x
  wellFormed : v.WellFormed

/-- A value that restores a representation is rebuilt as it is. -/
theorem Codec.Restores.fixed {α : Type} {codec : Codec α} {x : α} {v : Value} {shape : Shape}
    (restores : codec.Restores x v) (follows : codec.Follows shape) : shape.rebuild v = some v := by
  rw [← follows]
  simp only [Codec.roundTrip, restores.rebuilt, restores.written, Except.toOption]

/-- The representation type of a shape follows the shape. -/
theorem Shape.follows_codec (name : String) (shape : Shape) :
    (shape.codec name).Follows shape := by
  intro v
  simp only [Codec.roundTrip, Shape.codec]
  cases shape.rebuild v <;> rfl

end Triversion
