import Triversion.Proofs.Keyed
import Triversion.Value.At

/-! Well-formed values, whose objects all have ascending keys, stay so when they are changed. -/

namespace Triversion.Value

/-- A value is null, a scalar, a sequence of smaller values or an object of smaller values. -/
@[elab_as_elim]
theorem inductionOn {motive : Value → Prop} (v : Value) (null : motive .null)
    (bool : ∀ b, motive (.bool b)) (number : ∀ n, motive (.number n))
    (string : ∀ s, motive (.string s))
    (array : ∀ items, (∀ item ∈ items, motive item) → motive (.array items))
    (object : ∀ fields, (∀ entry ∈ fields, motive entry.2) → motive (.object fields)) :
    motive v :=
  -- The nested lists are walked beside the values in them.
  @Value.rec motive (fun items => ∀ item ∈ items, motive item)
    (fun fields => ∀ entry ∈ fields, motive entry.2) (fun entry => motive entry.2)
    null bool number string array object
    (fun _ member => absurd member List.not_mem_nil)
    (fun _ _ first rest => List.forall_mem_cons.2 ⟨first, rest⟩)
    (fun _ member => absurd member List.not_mem_nil)
    (fun _ _ first rest => List.forall_mem_cons.2 ⟨first, rest⟩)
    (fun _ _ second => second) v

/-- Nothing but null is null. -/
theorem isNull_iff {v : Value} : v.isNull = true ↔ v = .null := by
  cases v <;> simp [isNull]

/-- Nothing but a sequence is one. -/
theorem isArray_iff {v : Value} : v.isArray = true ↔ ∃ items, v = .array items := by
  cases v <;> simp [isArray]

/-- Nothing but an object is one. -/
theorem isObject_iff {v : Value} : v.isObject = true ↔ ∃ fields, v = .object fields := by
  cases v <;> simp [isObject]

/-- A sequence of texts is a list of names. -/
theorem exists_texts {items : List Value} (each : ∀ item ∈ items, ∃ text, item = .string text) :
    ∃ texts : List String, items = texts.map .string := by
  induction items with
  | nil => exact ⟨[], rfl⟩
  | cons item rest ih =>
    obtain ⟨⟨text, rfl⟩, later⟩ := List.forall_mem_cons.1 each
    obtain ⟨texts, rfl⟩ := ih later
    exact ⟨text :: texts, rfl⟩

/-- A sequence is well formed if its items are. -/
theorem wellFormed_array {items : List Value} :
    (Value.array items).WellFormed ↔ ∀ item ∈ items, item.WellFormed := by
  rw [WellFormed]
  induction items with
  | nil => simp [WellFormedItems]
  | cons first rest ih => simp [WellFormedItems, ih]

/-- An object is well formed if its keys ascend and its fields hold well-formed values. -/
theorem wellFormed_object {fields : Fields} :
    (Value.object fields).WellFormed ↔
      Keyed.Ascending fields ∧ ∀ entry ∈ fields, entry.2.WellFormed := by
  -- The order of the keys is required once, and the values one by one.
  have general : WellFormedFields fields ↔ ∀ entry ∈ fields, entry.2.WellFormed := by
    induction fields with
    | nil => simp [WellFormedFields]
    | cons entry rest ih => simp [WellFormedFields, ih]
  rw [WellFormed, general]

/-- What is found in a well-formed object is well formed. -/
theorem WellFormed.of_get? {fields : Fields} (formed : (Value.object fields).WellFormed)
    {name : String} {v : Value} (found : Keyed.get? name fields = some v) : v.WellFormed :=
  (wellFormed_object.1 formed).2 _ (Keyed.mem_of_get? found)

/-- The names of a well-formed object are distinct. -/
theorem WellFormed.distinct {fields : Fields} (formed : (Value.object fields).WellFormed) :
    (fields.map (·.1)).Nodup :=
  (wellFormed_object.1 formed).1.nodup

/-- An object with ascending keys is well formed if all that is found in it is. -/
theorem wellFormed_of_get? {fields : Fields} (sorted : Keyed.Ascending fields)
    (formed : ∀ name v, Keyed.get? name fields = some v → v.WellFormed) :
    (Value.object fields).WellFormed :=
  wellFormed_object.2 ⟨sorted, fun entry member =>
    formed entry.1 entry.2 (Keyed.get?_of_mem sorted.nodup member)⟩

/-- The fields of a blank object are the blanks of its fields. -/
theorem blankFields_eq (fields : Fields) :
    blankFields fields = fields.map fun entry => (entry.1, entry.2.blank) := by
  induction fields with
  | nil => rfl
  | cons entry rest ih => rw [blankFields, ih, List.map_cons]

/-- What carries no information has none to lose. -/
@[simp] theorem blank_blank (v : Value) : v.blank.blank = v.blank := by
  induction v using inductionOn with
  | number n => cases n <;> rfl
  | object fields ih =>
    simp only [Value.blank, blankFields_eq, List.map_map]
    exact congrArg Value.object (List.map_congr_left fun entry member => by simp [ih entry member])
  | _ => rfl

/-- The blank of a well-formed value is well formed. -/
theorem WellFormed.blank {v : Value} (formed : v.WellFormed) : v.blank.WellFormed := by
  -- A blank object has the keys of the object, and a blank sequence has no items.
  induction v using inductionOn with
  | null => trivial
  | bool b => trivial
  | number n => trivial
  | string s => trivial
  | array items ih => exact wellFormed_array.2 (by simp)
  | object fields ih =>
    obtain ⟨sorted, inside⟩ := wellFormed_object.1 formed
    rw [Value.blank, blankFields_eq, wellFormed_object]
    -- Each field of the blank object is the blank of a field.
    refine ⟨Keyed.ascending_map (fun _ v => v.blank) sorted, ?_⟩
    intro entry member
    obtain ⟨field, listed, rfl⟩ := List.mem_map.1 member
    exact ih field listed (inside field listed)

/-- A step leads from a well-formed value to a well-formed one. -/
theorem WellFormed.step? {v part : Value} {segment : Segment} (formed : v.WellFormed)
    (found : v.step? segment = some part) : part.WellFormed := by
  -- A step leads to an item of a sequence, or to what an object holds under a name.
  cases v with
  | array items =>
    cases segment with
    | index i => exact wellFormed_array.1 formed _ (List.mem_of_getElem? found)
    | field name => simp [Value.step?] at found
    | key k => simp [Value.step?] at found
  | object fields =>
    cases segment with
    | index i => simp [Value.step?] at found
    | field name => exact formed.of_get? found
    | key k => exact formed.of_get? found
  | _ => cases segment <;> simp [Value.step?] at found

/-- A route leads from a well-formed value to a well-formed one. -/
theorem WellFormed.at? {v part : Value} {path : Path} (formed : v.WellFormed)
    (found : v.at? path = some part) : part.WellFormed := by
  induction path generalizing v with
  | nil => exact Option.some.inj found ▸ formed
  | cons segment rest ih =>
    obtain ⟨next, first, later⟩ := Option.bind_eq_some_iff.1 found
    exact ih (formed.step? first) later

/-- Changing one part in a well-formed way keeps a value well formed. -/
theorem WellFormed.modifyStep {v : Value} (formed : v.WellFormed) (segment : Segment)
    {f : Value → Value} (keeps : ∀ part, part.WellFormed → (f part).WellFormed) :
    (Value.modifyStep segment f v).WellFormed := by
  cases v with
  | array items =>
    cases segment with
    | index i =>
      rw [Value.modifyStep, wellFormed_array]
      intro item member
      obtain ⟨j, found⟩ := List.mem_iff_getElem?.1 member
      rw [List.getElem?_modify] at found
      obtain ⟨part, held, rfl⟩ := Option.map_eq_some_iff.1 found
      have fits := wellFormed_array.1 formed part (List.mem_of_getElem? held)
      -- Either the item stands at the position that is changed, or it is as it was.
      split
      · exact keeps part fits
      · exact fits
    | field name => exact formed
    | key k => exact formed
  | object fields =>
    -- Fields and keys change an object alike, under the name that they look up.
    have modified : ∀ name, (Value.object (Keyed.modify name f fields)).WellFormed := by
      intro name
      refine wellFormed_of_get? (Keyed.ascending_modify name f (wellFormed_object.1 formed).1) ?_
      intro other v found
      by_cases same : name = other
      · subst same
        rw [Keyed.get?_modify_self] at found
        obtain ⟨part, held, rfl⟩ := Option.map_eq_some_iff.1 found
        exact keeps part (formed.of_get? held)
      · rw [Keyed.get?_modify_of_ne same] at found
        exact formed.of_get? found
    cases segment with
    | index i => exact formed
    | field name => exact modified name
    | key k => exact modified k
  | _ => exact formed

/-- Setting one part to a well-formed value keeps a value well formed. -/
theorem WellFormed.setStep {v new : Value} (formed : v.WellFormed) (segment : Segment)
    (fits : new.WellFormed) : (Value.setStep segment new v).WellFormed := by
  cases v with
  | array items =>
    cases segment with
    | index i =>
      rw [Value.setStep, wellFormed_array]
      intro item member
      rcases List.mem_or_eq_of_mem_set member with before | rfl
      · exact wellFormed_array.1 formed item before
      · exact fits
    | field name => exact formed
    | key k => exact formed
  | object fields =>
    -- The entry that is put is the only one that is new.
    have put : ∀ name, (Value.object (Keyed.put name new fields)).WellFormed := by
      intro name
      obtain ⟨sorted, inside⟩ := wellFormed_object.1 formed
      refine wellFormed_object.2 ⟨Keyed.ascending_put sorted, fun entry member => ?_⟩
      rcases Keyed.mem_put member with rfl | before
      · exact fits
      · exact inside entry before
    cases segment with
    | index i => exact formed
    | field name => exact put name
    | key k => exact put k
  | _ => exact formed

/-- Removing one entry keeps a value well formed. -/
theorem WellFormed.eraseStep {v : Value} (formed : v.WellFormed) (segment : Segment) :
    (Value.eraseStep segment v).WellFormed := by
  cases v with
  | object fields =>
    -- Nothing is new after a removal.
    have erased : ∀ name, (Value.object (Keyed.erase name fields)).WellFormed := by
      intro name
      obtain ⟨sorted, inside⟩ := wellFormed_object.1 formed
      exact wellFormed_object.2 ⟨Keyed.ascending_erase name sorted,
        fun entry member => inside entry ((Keyed.sublist_erase name fields).subset member)⟩
    cases segment with
    | index i => exact formed
    | field name => exact erased name
    | key k => exact erased k
  | _ => exact formed

/-- Changing the end of a route in a well-formed way keeps a value well formed. -/
theorem WellFormed.modifyAt {v : Value} (formed : v.WellFormed) (path : Path)
    {f : Value → Value} (keeps : ∀ part, part.WellFormed → (f part).WellFormed) :
    (Value.modifyAt path f v).WellFormed := by
  induction path generalizing v with
  | nil => exact keeps v formed
  | cons segment rest ih => exact formed.modifyStep segment fun part fits => ih fits

/-- Setting the end of a route to a well-formed value keeps a value well formed. -/
theorem WellFormed.setAt {v new : Value} (formed : v.WellFormed) (path : Path)
    (fits : new.WellFormed) : (Value.setAt path new v).WellFormed := by
  -- The last step sets, and the steps before it lead through parts that are changed.
  induction path generalizing v with
  | nil => exact fits
  | cons segment rest ih =>
    cases rest with
    | nil => exact formed.setStep segment fits
    | cons next rest => exact formed.modifyStep segment fun part within => ih within

/-- Removing the end of a route keeps a value well formed. -/
theorem WellFormed.eraseAt {v : Value} (formed : v.WellFormed) (path : Path) :
    (Value.eraseAt path v).WellFormed := by
  induction path generalizing v with
  | nil => exact formed
  | cons segment rest ih =>
    cases rest with
    | nil => exact formed.eraseStep segment
    | cons next rest => exact formed.modifyStep segment fun part within => ih within

mutual
/-- Decides whether a value is well formed. -/
def decideWellFormed : (v : Value) → Decidable v.WellFormed
  | .null => .isTrue trivial
  | .bool _ => .isTrue trivial
  | .number _ => .isTrue trivial
  | .string _ => .isTrue trivial
  | .array items => decideWellFormedItems items
  | .object fields =>
    have := decideWellFormedFields fields
    inferInstanceAs (Decidable (Keyed.Ascending fields ∧ WellFormedFields fields))

/-- Decides whether all items are well formed. -/
def decideWellFormedItems : (items : List Value) → Decidable (WellFormedItems items)
  | [] => .isTrue trivial
  | v :: rest =>
    have := decideWellFormed v
    have := decideWellFormedItems rest
    inferInstanceAs (Decidable (v.WellFormed ∧ WellFormedItems rest))

/-- Decides whether all fields hold well-formed values. -/
def decideWellFormedFields : (fields : Fields) → Decidable (WellFormedFields fields)
  | [] => .isTrue trivial
  | (_, v) :: rest =>
    have := decideWellFormed v
    have := decideWellFormedFields rest
    inferInstanceAs (Decidable (v.WellFormed ∧ WellFormedFields rest))
end

instance (v : Value) : Decidable v.WellFormed :=
  decideWellFormed v

end Triversion.Value
