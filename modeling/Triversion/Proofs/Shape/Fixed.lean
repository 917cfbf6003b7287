import Triversion.Bookkeeping
import Triversion.Proofs.Shape.Mould

/-!
Shapes of fixed structure: records of records and scalars, and nothing whose parts vary.

What such a shape accepts is decided place by place: an accepted value stays accepted when one
place is set, exactly if the shape of the place accepts what is set there.
-/

namespace Triversion.Shape

/-- Whether the shape is that of a scalar that is never null, and may be zero if it is a number. -/
def isPlain : Shape → Bool
  | .bool | .string | .float => true
  | .integer low high => low ≤ 0 && 0 ≤ high
  | _ => false

/-- Whether the shape is that of a plain scalar, or of one that may be null. -/
def isLeaf : Shape → Bool
  | .optional shape => shape.isPlain
  | shape => shape.isPlain

/-- Whether the shape is that of a record. -/
def isRecord : Shape → Bool
  | .record _ _ => true
  | _ => false

/-- Whether a field is a leaf or a record, or a bookkeeping list of names. -/
def isFixedField (field : FieldRule × Shape) : Bool :=
  if isBookkeeping field.1.name then field.2.isNameList else field.2.isLeaf || field.2.isRecord

/-- Whether the parts of a value are known beforehand: a record has fields, and writes them all. -/
def isFixed : Shape → Bool
  | .record rule fields => writesAll rule fields && !fields.isEmpty && fields.all isFixedField
  | shape => shape.isLeaf || shape.isNameList

theorem isFixed.steady {shape : Shape} (fixed : shape.isFixed = true) : shape.isSteady = true := by
  cases shape with
  | record rule fields => exact (Bool.and_eq_true_iff.1 (Bool.and_eq_true_iff.1 fixed).1).1
  | any | tuple shapes => simp [isFixed, isLeaf, isPlain, isNameList] at fixed
  | _ => rfl

/-- What is fixed everywhere is steady everywhere. -/
theorem steady_of_fixed {shape : Shape} (fixed : shape.everywhere isFixed = true) :
    shape.everywhere isSteady = true :=
  everywhere_mono (fun _ => isFixed.steady) fixed

section Scalars

variable {shape : Shape} {v w : Value}

/-- The ways in which a plain scalar is rebuilt from a value. -/
inductive RebuildsPlain : Shape → Value → Value → Prop where
  | bool (b : Bool) : RebuildsPlain .bool (.bool b) (.bool b)
  | string (s : String) : RebuildsPlain .string (.string s) (.string s)
  | whole {low high i : Int} (inside : low ≤ i ∧ i ≤ high) :
    RebuildsPlain (.integer low high) (.whole i) (.whole i)
  | float (d : Double) : RebuildsPlain .float (.number (.float d)) (.number (.float d))
  | converted {i : Int} {d : Double} (same : Double.ofInt? i = some d) :
    RebuildsPlain .float (.whole i) (.number (.float d))

/-- Whatever a plain scalar is rebuilt from is of its kind, or a whole number as a float. -/
theorem rebuildsPlain (plain : shape.isPlain = true) (rebuilt : shape.rebuild v = some w) :
    RebuildsPlain shape v w := by
  cases shape with
  | bool | string =>
    cases v <;> simp [rebuild] at rebuilt
    subst rebuilt
    constructor
  | integer low high =>
    cases v with
    | number n =>
      cases n with
      | whole i =>
        obtain ⟨inside, rfl⟩ : (low ≤ i ∧ i ≤ high) ∧ Value.whole i = w := by
          simpa [rebuild] using rebuilt
        exact .whole inside
      | float d => simp [rebuild] at rebuilt
    | _ => simp [rebuild] at rebuilt
  | float =>
    cases v with
    | number n =>
      cases n with
      | whole i =>
        obtain ⟨d, same, rfl⟩ :=
          Option.map_eq_some_iff.1 (by rwa [rebuild, rebuildFloat] at rebuilt)
        exact .converted same
      | float d =>
        obtain rfl : Value.number (.float d) = w := by simpa [rebuild, rebuildFloat] using rebuilt
        exact .float d
    | _ => simp [rebuild, rebuildFloat] at rebuilt
  | _ => simp [isPlain] at plain

/-- A plain scalar is rebuilt as one that stays as it is, and that it could be copied over. -/
theorem rebuild_plain (plain : shape.isPlain = true) (rebuilt : shape.rebuild v = some w) :
    w.scalarFits v = true ∧ shape.rebuild w = some w := by
  cases rebuildsPlain plain rebuilt with
  | whole inside => exact ⟨rfl, by simp [rebuild, Value.whole, inside]⟩
  | _ => exact ⟨rfl, rfl⟩

theorem isLeaf.cases (leaf : shape.isLeaf = true) :
    shape.isPlain = true ∨ ∃ inner, shape = .optional inner ∧ inner.isPlain = true := by
  cases shape with
  | optional inner => exact .inr ⟨inner, rfl, leaf⟩
  | _ => exact .inl leaf

/-- A leaf is rebuilt from null as null, or from a scalar. -/
theorem rebuild_leaf (leaf : shape.isLeaf = true) (rebuilt : shape.rebuild v = some w) :
    shape.rebuild w = some w ∧ (v = .null ∧ w = .null ∨ w.scalarFits v = true) := by
  rcases isLeaf.cases leaf with plain | ⟨inner, rfl, plain⟩
  · exact (rebuild_plain plain rebuilt).symm.imp_right .inr
  · rw [rebuild] at rebuilt
    split at rebuilt
    · next null =>
      obtain rfl := Value.isNull_iff.1 null
      obtain rfl := Option.some.inj rebuilt
      exact ⟨rfl, .inl ⟨rfl, rfl⟩⟩
    · obtain ⟨fits, again⟩ := rebuild_plain plain rebuilt
      refine ⟨?_, .inr fits⟩
      rw [rebuild, again]
      cases w <;> simp_all [Value.scalarFits, Value.isNull]

/-- A leaf is null or a scalar, and a scalar could be copied over itself. -/
theorem scalarFits_self_of_leaf (leaf : shape.isLeaf = true) (fixed : shape.rebuild v = some v) :
    v = .null ∨ v.scalarFits v = true :=
  (rebuild_leaf leaf fixed).2.imp And.left id

end Scalars

section Record

variable {rule : RecordRule} {fields : List (FieldRule × Shape)}

theorem isFixed_record : (Shape.record rule fields).isFixed = true ↔
    writesAll rule fields = true ∧ fields ≠ [] ∧ ∀ field ∈ fields, isFixedField field = true := by
  simp [isFixed, and_assoc]

/-- A value that a record of fixed structure rebuilds as it is holds all its fields, and some. -/
theorem rebuilds_of_isFixed {v : Value}
    (fixed : (Shape.record rule fields).everywhere isFixed = true)
    (again : (Shape.record rule fields).rebuild v = some v) :
    ∃ given, v = .object given ∧ given ≠ [] ∧ Rebuilds rule fields given given := by
  obtain ⟨all, filled, _⟩ := isFixed_record.1 (everywhere_record.1 fixed).1
  obtain ⟨forgets, distinct, _⟩ := writesAll_iff.1 all
  obtain ⟨given, rfl, rebuilds⟩ := rebuilds_of_fixed forgets distinct again
  refine ⟨given, rfl, ?_, rebuilds⟩
  obtain ⟨field, rest, rfl⟩ := List.exists_cons_of_ne_nil filled
  obtain ⟨old, held, _⟩ := rebuilds.get? all List.mem_cons_self
  rintro rfl
  simp [Keyed.get?] at held

/-- An object is accepted as a record if its names are, and each of its fields is. -/
theorem rebuild_record_isSome (distinct : (names fields).Nodup) {given : Fields} :
    ((Shape.record rule fields).rebuild (.object given)).isSome = true ↔
      (rule.unknown = .rejected → undeclared fields given = []) ∧
        ∀ field ∈ fields, (declaredValue rule given field).isSome = true := by
  simp only [rebuild, List.isEmpty_iff]
  constructor
  · intro accepted
    split at accepted
    · simp at accepted
    · next passes =>
      refine ⟨fun rejects => Classical.not_not.1 fun others => passes ⟨rejects, others⟩,
        fun field member => ?_⟩
      rw [Option.isSome_map, Option.isSome_iff_exists] at accepted
      obtain ⟨declared, rebuilt⟩ := accepted
      obtain ⟨v, found, _⟩ := get?_of_rebuildNamed distinct rebuilt field member
      rw [found, Option.isSome_some]
  · rintro ⟨admitted, each⟩
    rw [if_neg fun refused => refused.2 (admitted refused.1)]
    obtain ⟨declared, rebuilt⟩ := rebuildNamed_isSome each
    rw [rebuilt, Option.map_some, Option.isSome_some]

/--
A record that accepts an object accepts one that differs in a single name, if the shape of the
name accepts what stands there, or the name is unknown and ignored.
-/
theorem rebuild_isSome_of_get? (reads : readsAll rule fields = true) {given changed : Fields}
    {name : String} (new : Value)
    (accepted : ((Shape.record rule fields).rebuild (.object given)).isSome = true)
    (inside : ∀ other ∈ changed.map (·.1), other = name ∨ other ∈ given.map (·.1))
    (others : ∀ other, other ≠ name → Keyed.get? other changed = Keyed.get? other given)
    (here : Keyed.get? name changed = some new)
    (fits : match (Shape.record rule fields).under? name with
      | some inner => (inner.rebuild new).isSome = true
      | none => rule.unknown = .ignored) :
    ((Shape.record rule fields).rebuild (.object changed)).isSome = true := by
  obtain ⟨_, distinct, unpinned⟩ := readsAll_iff.1 reads
  obtain ⟨admitted, fitting⟩ := (rebuild_record_isSome distinct).1 accepted
  refine (rebuild_record_isSome distinct).2 ⟨fun rejects => ?_, fun field member => ?_⟩
  · -- A new name is declared, or the record would ignore it.
    refine (undeclared_eq_nil_iff unpinned).2 fun other listed => ?_
    rcases inside other listed with rfl | old
    · cases found : (Shape.record rule fields).under? other with
      | none => simp [found, rejects] at fits
      | some inner =>
        obtain ⟨field, member, named, _⟩ := exists_field_of_under? found
        exact List.mem_map.2 ⟨field, member, named⟩
    · exact (undeclared_eq_nil_iff unpinned).1 (admitted rejects) other old
  · by_cases same : field.1.name = name
    · subst same
      rw [under?_record distinct member] at fits
      rw [declaredValue, unpinned field member]
      simp only [here]
      exact fits
    · have before := fitting field member
      rw [declaredValue, unpinned field member] at before ⊢
      rwa [others _ same]

end Record

section Places

/-- Whether a value is accepted at the end of a route through records. -/
def takes : Path → Shape → Value → Bool
  | [], shape, v => (shape.rebuild v).isSome
  | segment :: path, .record rule fields, v =>
    match segment.name? with
    | none => false
    | some name =>
      match (Shape.record rule fields).under? name with
      | some inner => takes path inner v
      -- Whatever stands under an unknown name is ignored with it.
      | none => rule.unknown = .ignored
  | _ :: _, _, _ => false

/-- A route through records by names, which is of no further interest behind an unknown name. -/
def Passes : Path → Shape → Prop
  | [], _ => True
  | segment :: path, .record rule fields => ∃ name, segment.name? = some name ∧
    ∀ inner, (Shape.record rule fields).under? name = some inner → Passes path inner
  | _ :: _, _ => False

variable {shape : Shape} {path : Path}

/-- What stands in an accepted value is accepted at its place. -/
theorem takes_of_rebuild (steady : shape.everywhere isSteady = true) (passes : Passes path shape)
    {v part : Value} (accepted : (shape.rebuild v).isSome = true)
    (found : v.at? path = some part) : takes path shape part = true := by
  induction path generalizing shape v with
  | nil => exact Option.some.inj found ▸ accepted
  | cons segment rest ih =>
    cases shape with
    | record rule fields =>
      obtain ⟨name, named, later⟩ := passes
      obtain ⟨next, first, leads⟩ := Option.bind_eq_some_iff.1 found
      have all : writesAll rule fields = true := (everywhere_record.1 steady).1
      obtain ⟨forgets, distinct, each⟩ := writesAll_iff.1 all
      -- Fields and keys lead into objects only.
      obtain ⟨given, rfl⟩ : ∃ given, v = .object given := by
        cases segment <;> cases v <;> simp_all [Value.step?, Segment.name?]
      rw [Value.step?_object, named, Option.bind_some] at first
      obtain ⟨admitted, fitting⟩ := (rebuild_record_isSome distinct).1 accepted
      simp only [takes, named]
      split
      · next inner declared =>
        obtain ⟨field, member, rfl, rfl⟩ := exists_field_of_under? declared
        have fits := fitting field member
        simp only [declaredValue, (each field member).2, first] at fits
        exact ih ((everywhere_record.1 steady).2 field member) (later _ declared) fits leads
      · next unknown =>
        -- An unknown name in an accepted object is not rejected, and so ignored.
        have notRejected : rule.unknown ≠ .rejected := by
          intro rejects
          have listed := (undeclared_eq_nil_iff fun field member => (each field member).2).1
            (admitted rejects) name (List.mem_map.2 ⟨_, Keyed.mem_of_get? first, rfl⟩)
          obtain ⟨field, member, rfl⟩ := List.mem_map.1 listed
          rw [under?_record distinct member] at unknown
          simp at unknown
        cases kind : rule.unknown <;> simp_all
    | _ => exact passes.elim

/-- An accepted value stays accepted when a place is set to what is accepted there. -/
theorem rebuild_setAt_isSome (steady : shape.everywhere isSteady = true) {v new : Value}
    (accepted : (shape.rebuild v).isSome = true) (place : v.HasPlace path)
    (fits : takes path shape new = true) :
    (shape.rebuild (Value.setAt path new v)).isSome = true := by
  induction path generalizing shape v with
  | nil => exact fits
  | cons segment rest ih =>
    cases shape with
    | record rule fields =>
      have all : writesAll rule fields = true := (everywhere_record.1 steady).1
      obtain ⟨forgets, distinct, each⟩ := writesAll_iff.1 all
      rw [takes] at fits
      split at fits
      · simp at fits
      · next name named =>
        -- The last name is set, and the part behind every other one is changed.
        cases rest with
        | nil =>
          obtain ⟨given, rfl⟩ : ∃ given, v = .object given := by
            cases segment <;> cases v <;> simp_all [Value.HasPlace, Value.Admits, Segment.name?]
          simp only [Value.setAt, Value.setStep, named]
          refine rebuild_isSome_of_get? (writesAll.readsAll all) new accepted
            (fun other listed => ?_) (fun other different =>
              Keyed.get?_put_of_ne different.symm _ _)
            (Keyed.get?_put_self _ _ _) ?_
          · obtain ⟨entry, stored, rfl⟩ := List.mem_map.1 listed
            rcases Keyed.mem_put stored with rfl | old
            · exact .inl rfl
            · exact .inr (List.mem_map.2 ⟨entry, old, rfl⟩)
          · split at fits
            · next inner declared => simpa only [declared, takes] using fits
            · next unknown => simpa only [unknown, decide_eq_true_eq] using fits
        | cons next later =>
          obtain ⟨part, first, inside⟩ := place
          obtain ⟨given, rfl⟩ : ∃ given, v = .object given := by
            cases segment <;> cases v <;> simp_all [Value.step?, Segment.name?]
          rw [Value.step?_object, named, Option.bind_some] at first
          simp only [Value.setAt, Value.modifyStep, named]
          refine rebuild_isSome_of_get? (writesAll.readsAll all)
            (Value.setAt (next :: later) new part) accepted
            (fun other listed => .inr (by rwa [Keyed.map_fst_modify] at listed))
            (fun other different => Keyed.get?_modify_of_ne different.symm _ _)
            (by rw [Keyed.get?_modify_self, first, Option.map_some]) ?_
          split at fits
          · next inner declared =>
            obtain ⟨field, member, rfl, rfl⟩ := exists_field_of_under? declared
            have before := ((rebuild_record_isSome distinct).1 accepted).2 field member
            simp only [declaredValue, (each field member).2, first] at before
            exact ih ((everywhere_record.1 steady).2 field member) before inside fits
          · next unknown => simpa only [unknown, decide_eq_true_eq] using fits
    | _ => simp [takes] at fits

end Places

/-- The blank of a value in the mould of a fixed shape is accepted. -/
theorem rebuild_blank_isSome {shape : Shape} {v : Value} (fixed : shape.everywhere isFixed = true)
    (formed : v.WellFormed) (moulds : shape.Moulds v) : (shape.rebuild v.blank).isSome = true := by
  -- The bounds of a fixed shape let zero pass.
  induction moulds with
  | bool | string | float => rfl
  | integer low high i =>
    have inside : low ≤ 0 ∧ 0 ≤ high := by
      simpa [everywhere, isFixed, isLeaf, isPlain, isNameList] using fixed
    simp [Value.whole, Value.blank, Number.blank, rebuild, inside]
  | unit | choice | map => simp [everywhere, isFixed, isLeaf, isPlain, isNameList] at fixed
  | absent shape => rfl
  | @present shape v inside ih =>
    rw [rebuild]
    split
    · rfl
    · exact ih (everywhere_optional.1 fixed).2 formed
  | list each ih => rfl
  | @record rule fields given declared complete each ih =>
    obtain ⟨here, inside⟩ := everywhere_record.1 fixed
    obtain ⟨_, distinct, written⟩ := writesAll_iff.1 (isFixed_record.1 here).1
    rw [Value.blank, Value.blankFields_eq]
    refine (rebuild_record_isSome distinct).2 ⟨fun _ => ?_, fun field member => ?_⟩
    · refine (undeclared_eq_nil_iff fun field member => (written field member).2).2 ?_
      rwa [List.map_map]
    · obtain ⟨⟨_, old⟩, listed, rfl⟩ :=
        List.mem_map.1 (complete field member (written field member).1)
      have held := Keyed.get?_of_mem formed.distinct listed
      rw [declaredValue, (written field member).2]
      simp only [Keyed.get?_map fun _ => Value.blank, held, Option.map_some]
      exact ih field member old listed (inside field member) (formed.of_get? held)

end Triversion.Shape
