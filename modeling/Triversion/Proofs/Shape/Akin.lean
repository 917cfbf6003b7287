import Triversion.Proofs.Shape.Fixed
import Triversion.Proofs.Transfer.Replacement
import Triversion.Proofs.Value.Scalars

/-!
Shapes that differ in the bounds of whole numbers alone.

Such shapes have one mould, so a value of the one can only be refused by the other for a number
that is out of bounds. Zero is within all bounds, so the number carries information.
-/

namespace Triversion.Shape

/-- Shapes of one mould, whose structs may bound their whole numbers differently around zero. -/
inductive Akin : Shape → Shape → Prop where
  | same (shape : Shape) : Akin shape shape
  | integer {low high low' high' : Int} (zero : low ≤ 0 ∧ 0 ≤ high) (zero' : low' ≤ 0 ∧ 0 ≤ high') :
    Akin (.integer low high) (.integer low' high')
  | optional {shape other : Shape} (inside : Akin shape other) :
    Akin (.optional shape) (.optional other)
  | record (rule rule' : RecordRule) {fields fields' : List (FieldRule × Shape)}
    (sameNames : names fields = names fields')
    (inside : ∀ field ∈ fields, ∀ other ∈ fields', field.1.name = other.1.name →
      Akin field.2 other.2) :
    Akin (.record rule fields) (.record rule' fields')

namespace Akin

variable {shape other : Shape} {v : Value}

/-- Of two records that are akin each field of the one has a namesake in the other. -/
theorem exists_namesake {fields fields' : List (FieldRule × Shape)}
    (sameNames : names fields = names fields') {field : FieldRule × Shape}
    (member : field ∈ fields') :
    ∃ namesake ∈ fields, namesake.1.name = field.1.name := by
  have listed : field.1.name ∈ names fields := by
    rw [sameNames]
    exact List.mem_map_of_mem member
  exact List.mem_map.1 listed

/-- What is in the mould of a shape is in the mould of every shape akin to it. -/
theorem moulds (akin : Akin shape other) (steady : shape.everywhere isSteady = true)
    (moulds : shape.Moulds v) : other.Moulds v := by
  -- The mould of a number does not depend on its bounds, and that of a struct on its names only.
  induction akin generalizing v with
  | same shape => exact moulds
  | integer zero zero' =>
    cases moulds
    exact .integer _ _ _
  | optional inside ih =>
    cases moulds with
    | absent => exact .absent _
    | present within => exact .present (ih (everywhere_optional.1 steady).2 within)
  | record rule rule' sameNames inside ih =>
    obtain ⟨all, steadyInside⟩ := everywhere_record.1 steady
    cases moulds with
    | record _ declared complete each =>
    refine .record rule' (fun name listed => sameNames ▸ declared name listed) ?_ ?_
    · intro field member _
      obtain ⟨namesake, listed, named⟩ := exists_namesake sameNames member
      exact named ▸ complete namesake listed ((writesAll_iff.1 all).2.2 namesake listed).1
    · intro field member part found
      obtain ⟨namesake, listed, named⟩ := exists_namesake sameNames member
      exact ih namesake listed field member named (steadyInside namesake listed)
        (each namesake listed part (named ▸ found))

/-- What is well named under a shape is well named under every shape akin to it. -/
theorem wellNamed (akin : Akin shape other) (named : shape.wellNamed v = true) :
    other.wellNamed v = true := by
  -- Naming looks at names only, and these are the same.
  induction akin generalizing v with
  | same shape => exact named
  | integer zero zero' => rfl
  | optional inside ih => exact ih named
  | record rule rule' sameNames inside ih =>
    cases v with
    | object given =>
      obtain ⟨own, each⟩ := wellNamed_record.1 named
      refine wellNamed_record.2 ⟨?_, fun field member part held => ?_⟩
      · -- Which names are a record's own is decided by its names.
        rwa [namesOwnFields, ← sameNames]
      · obtain ⟨namesake, listed, same⟩ := exists_namesake sameNames member
        exact ih namesake listed field member same (each namesake listed part (same ▸ held))
    | _ => rfl

section Record

variable {rule rule' : RecordRule} {fields fields' : List (FieldRule × Shape)} {given : Fields}

/-- A struct is refused with any one of its fields. -/
theorem refused_of_field (all : writesAll rule fields = true) {field : FieldRule × Shape}
    (member : field ∈ fields) {part : Value} (held : Keyed.get? field.1.name given = some part)
    (refused : field.2.rebuild part = none) :
    (Shape.record rule fields).rebuild (.object given) = none := by
  obtain ⟨_, distinct, each⟩ := writesAll_iff.1 all
  cases accepted : (Shape.record rule fields).rebuild (.object given) with
  | none => rfl
  | some w =>
    -- An accepted struct has all its fields accepted.
    have accepts := ((rebuild_record_isSome distinct).1 (by rw [accepted]; rfl)).2 field member
    rw [declaredValue, (each field member).2] at accepts
    simp [held, refused] at accepts

/-- A struct that a record of the same names writes is only refused for one of its fields. -/
theorem exists_refused_field (sameNames : names fields = names fields')
    (all : writesAll rule fields = true) (allOther : writesAll rule' fields' = true)
    (rebuilds : Rebuilds rule fields given given)
    (refused : (Shape.record rule' fields').rebuild (.object given) = none) :
    ∃ field ∈ fields', ∃ namesake ∈ fields, namesake.1.name = field.1.name ∧
      ∃ part, Keyed.get? field.1.name given = some part ∧
        namesake.2.rebuild part = some part ∧ field.2.rebuild part = none := by
  obtain ⟨_, distinct, each⟩ := writesAll_iff.1 allOther
  have partOf : ∀ field ∈ fields', ∃ namesake ∈ fields, namesake.1.name = field.1.name ∧
      ∃ part, Keyed.get? field.1.name given = some part ∧
        namesake.2.rebuild part = some part := by
    intro field member
    obtain ⟨namesake, listed, named⟩ := exists_namesake sameNames member
    obtain ⟨part, held, fixed⟩ := rebuilds.get? all listed
    exact ⟨namesake, listed, named, part, named ▸ held, fixed part held⟩
  apply Classical.byContradiction
  intro none
  -- Otherwise every field is accepted, and no name is unknown.
  have accepted : ((Shape.record rule' fields').rebuild (.object given)).isSome = true := by
    refine (rebuild_record_isSome distinct).2 ⟨fun _ => ?_, fun field member => ?_⟩
    · refine (undeclared_eq_nil_iff fun field member => (each field member).2).2
        fun name listed => ?_
      rw [← sameNames]
      apply Classical.byContradiction
      intro unknown
      exact Keyed.get?_eq_none_iff.1 (rebuilds.declared name unknown) listed
    · obtain ⟨namesake, listed, named, part, held, fixed⟩ := partOf field member
      rw [declaredValue, (each field member).2]
      simp only [held]
      apply Option.isSome_iff_ne_none.2
      intro refusedPart
      exact none ⟨field, member, namesake, listed, named, part, held, fixed, refusedPart⟩
  simp [refused] at accepted

end Record

/--
A value that one shape writes and a shape akin to it refuses holds a number that is to blame.

The number is not zero and stands behind ordinary names, and whatever holds it there is refused.
-/
theorem exists_refused (akin : Akin shape other) (replaceable : shape.isReplaceable = true)
    (replaceableOther : other.isReplaceable = true) (fixed : shape.rebuild v = some v)
    (refused : other.rebuild v = none) :
    ∃ names scalar, v.HasScalar names scalar ∧ (∀ name ∈ names, isBookkeeping name = false) ∧
      ∀ w : Value, w.HasScalar names scalar → other.rebuild w = none := by
  -- Equal shapes refuse the same, so one of the bounds differs, at the end of the route.
  induction akin generalizing v with
  | same shape => simp [fixed] at refused
  | @integer low high low' high' zero zero' =>
    cases v with
    | number n =>
      cases n with
      | whole i =>
        -- Zero would have been accepted.
        have outside : ¬ (low' ≤ i ∧ i ≤ high') := by
          simpa [rebuild] using refused
        have filled : i ≠ 0 := by omega
        refine ⟨[], .number (.whole i), ⟨rfl, ?_, rfl⟩, by simp, fun w has => ?_⟩
        · simpa [Value.isBlank, Number.isZero] using filled
        · obtain rfl : w = .number (.whole i) := Option.some.inj has.found
          exact refused
      | float d => simp [rebuild] at fixed
    | _ => simp [rebuild] at fixed
  | optional inside ih =>
    -- Null is accepted, and has no scalar in it.
    have filled : v.isNull = false := by
      apply Bool.eq_false_iff.2
      intro null
      simp [rebuild, null] at refused
    rw [rebuild, filled, if_neg Bool.false_ne_true] at fixed refused
    obtain ⟨names, scalar, has, ordinary, each⟩ := ih (everywhere_optional.1 replaceable).2
      (everywhere_optional.1 replaceableOther).2 fixed refused
    refine ⟨names, scalar, has, ordinary, fun w hasToo => ?_⟩
    have filledToo : w.isNull = false := by
      apply Bool.eq_false_iff.2
      intro null
      obtain rfl := Value.isNull_iff.1 null
      simpa [Value.isBlank] using hasToo.not_blank
    rw [rebuild, filledToo, if_neg Bool.false_ne_true]
    exact each w hasToo
  | @record rule rule' fields fields' sameNames inside ih =>
    obtain ⟨all, within, lists⟩ := isReplaceable_record replaceable
    obtain ⟨allOther, withinOther, listsOther⟩ := isReplaceable_record replaceableOther
    obtain ⟨forgets, distinct, _⟩ := writesAll_iff.1 all
    obtain ⟨given, rfl, rebuilds⟩ := rebuilds_of_fixed forgets distinct fixed
    obtain ⟨field, member, namesake, listed, named, part, held, fixedPart, refusedPart⟩ :=
      exists_refused_field sameNames all allOther rebuilds refused
    have ordinary : isBookkeeping field.1.name = false := by
      apply Bool.eq_false_iff.2
      intro list
      -- Lists of names are accepted by every list of names.
      obtain ⟨_, texts, rfl⟩ := exists_strings (lists namesake listed (named ▸ list)) fixedPart
      simp [rebuild_strings (listsOther field member list)] at refusedPart
    -- The field holds such a number, which stands one name further in the struct.
    obtain ⟨route, scalar, has, ordinaryRoute, eachPart⟩ := ih namesake listed field member named
      (within namesake listed) (withinOther field member) fixedPart refusedPart
    refine ⟨field.1.name :: route, scalar, ?_, ?_, fun w hasToo => ?_⟩
    · exact Value.HasScalar.object_iff.2 ⟨part, held, has⟩
    · exact List.forall_mem_cons.2 ⟨ordinary, ordinaryRoute⟩
    · -- Whatever holds the number in this field has the field refused as well.
      obtain ⟨none, _⟩ | ⟨others, _, _, inner, rfl, split, found, hasInner⟩ := hasToo.cases
      · simp at none
      obtain ⟨rfl, rfl⟩ := List.cons.inj split
      exact refused_of_field allOther member found (eachPart inner hasInner)

end Akin

end Triversion.Shape
