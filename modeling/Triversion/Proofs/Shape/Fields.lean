import Triversion.Proofs.Shape.Fixed
import Triversion.Proofs.Shape.Parts

/-!
Routes of struct fields.

Such a route passes records and optional records only. If these are anchored, a value that is
accepted stays so when the end of the route is set to what is accepted there, and what is rebuilt
there stands there, unless it is null or a sequence without items.
-/

namespace Triversion

/-- The route along the fields of some names. -/
def Path.ofNames (names : List String) : Path :=
  names.map .field

namespace Path

@[simp] theorem ofNames_nil : ofNames [] = [] :=
  rfl

@[simp] theorem ofNames_cons (name : String) (names : List String) :
    ofNames (name :: names) = .field name :: ofNames names :=
  rfl

@[simp] theorem ofNames_append (names others : List String) :
    ofNames (names ++ others) = ofNames names ++ ofNames others :=
  List.map_append

end Path

/-- A value that a field leads into is an object. -/
theorem Value.exists_object_of_step? {v part : Value} {name : String}
    (found : v.step? (.field name) = some part) :
    ∃ fields, v = .object fields ∧ Keyed.get? name fields = some part := by
  cases v with
  | object fields => exact ⟨fields, rfl, found⟩
  | _ => simp [Value.step?] at found

namespace Shape

variable {shape inner : Shape} {name : String} {names : List String} {v w part : Value}

/-- A field of an object that is rebuilt is rebuilt on its own, and stands there if it is solid. -/
theorem Enters.stands (enters : Enters (.field name) shape inner)
    (anchored : shape.holds isAnchored = true) {given : Fields}
    (rebuilt : shape.rebuild (.object given) = some w) (held : Keyed.get? name given = some part) :
    ∃ kept settled, w = .object kept ∧ inner.rebuild part = some settled ∧
      (settled.isSolid = true → Keyed.get? name kept = some settled) := by
  generalize field : Segment.field name = segment at enters
  induction enters with
  | optional _ ih => exact ih anchored rebuilt field
  | item | key => cases field
  | @field rule fields declared member =>
    obtain rfl := Segment.field.inj field
    have reads := isAnchored.readsAll anchored
    obtain ⟨forgets, distinct, unpinned⟩ := readsAll_iff.1 reads
    obtain ⟨kept, rfl, rebuilds⟩ := (rebuild_object_iff forgets distinct).1 rebuilt
    obtain ⟨settled, found, stands⟩ := rebuilds.each declared member
    rw [declaredValue, unpinned declared member] at found
    simp only [held] at found
    refine ⟨kept, settled, rfl, found, fun solid => ?_⟩
    rw [stands, if_pos (declared.1.keeps_of_isSolid solid)]

/-- What a field leads into is null, or a filled object, if it is rebuilt as it is. -/
theorem Enters.exists_object (enters : Enters (.field name) shape inner)
    (anchored : shape.holds isAnchored = true) (fixed : shape.rebuild v = some v)
    (filled : v.isNull = false) : ∃ fields, v = .object fields ∧ fields ≠ [] := by
  generalize field : Segment.field name = segment at enters
  induction enters with
  | optional _ ih =>
    rw [rebuild, if_neg (by simp [filled])] at fixed
    exact ih anchored fixed field
  | item | key => cases field
  | field member =>
    have reads := isAnchored.readsAll anchored
    obtain ⟨forgets, distinct, _⟩ := readsAll_iff.1 reads
    obtain ⟨given, rfl, rebuilds⟩ := rebuilds_of_fixed forgets distinct fixed
    refine ⟨given, rfl, ?_⟩
    rintro rfl
    -- One of the fields is always written.
    obtain ⟨written, another, never⟩ := isAnchored.exists_never anchored (List.ne_nil_of_mem member)
    obtain ⟨_, _, stands⟩ := rebuilds.each written another
    simp [Keyed.get?, FieldRule.keeps, never] at stands

/-- An object that differs in one field stays accepted if the new field is accepted. -/
theorem Enters.rebuild_isSome (enters : Enters (.field name) shape inner)
    (anchored : shape.holds isAnchored = true) {given changed : Fields}
    (accepted : (shape.rebuild (.object given)).isSome = true)
    (inside : ∀ other ∈ changed.map (·.1), other = name ∨ other ∈ given.map (·.1))
    (others : ∀ other, other ≠ name → Keyed.get? other changed = Keyed.get? other given)
    (here : Keyed.get? name changed = some part) (fits : (inner.rebuild part).isSome = true) :
    (shape.rebuild (.object changed)).isSome = true := by
  generalize field : Segment.field name = segment at enters
  induction enters with
  | optional _ ih => exact ih anchored accepted fits field
  | item | key => cases field
  | field member =>
    obtain rfl := Segment.field.inj field
    have reads := isAnchored.readsAll anchored
    refine rebuild_isSome_of_get? reads part accepted inside others here ?_
    rwa [under?_record (readsAll_iff.1 reads).2.1 member]

/-- What is rebuilt at the end of a route of fields stands there if it is solid. -/
theorem Reaches.stands (reached : Reaches (Path.ofNames names) shape inner)
    (along : AnchoredAlong (Path.ofNames names) shape) (rebuilt : shape.rebuild v = some w)
    (found : v.at? (Path.ofNames names) = some part) :
    ∃ settled, inner.rebuild part = some settled ∧
      (settled.isSolid = true → w.at? (Path.ofNames names) = some settled) := by
  induction names generalizing shape v w with
  | nil =>
    obtain rfl : shape = inner := reached
    obtain rfl := Option.some.inj found
    exact ⟨w, rebuilt, fun _ => rfl⟩
  | cons name rest ih =>
    obtain ⟨middle, enters, onward⟩ := reached
    obtain ⟨next, first, later⟩ := Option.bind_eq_some_iff.1 found
    obtain ⟨given, rfl, held⟩ := Value.exists_object_of_step? first
    obtain ⟨kept, settledNext, rfl, rebuiltNext, standsNext⟩ :=
      enters.stands along.here rebuilt held
    obtain ⟨settled, again, within⟩ := ih onward (along.2 _ enters.step) rebuiltNext later
    refine ⟨settled, again, fun solid => ?_⟩
    -- A part around a solid one is an object, which is solid too.
    have solidNext : settledNext.isSolid = true := by
      cases rest with
      | nil => exact Option.some.inj (within solid) ▸ solid
      | cons next later =>
        obtain ⟨_, inside, _⟩ := Option.bind_eq_some_iff.1 (within solid)
        obtain ⟨_, rfl, _⟩ := Value.exists_object_of_step? inside
        rfl
    have here : (Value.object kept).step? (.field name) = some settledNext := standsNext solidNext
    rw [Path.ofNames_cons, Value.at?, here, Option.bind_some, within solid]

/-- A value stays accepted if the end of a route of fields is set to what is accepted there. -/
theorem Reaches.rebuild_setAt_isSome (reached : Reaches (Path.ofNames names) shape inner)
    (along : AnchoredAlong (Path.ofNames names) shape)
    (accepted : (shape.rebuild v).isSome = true) (place : v.HasPlace (Path.ofNames names))
    {new : Value} (fits : (inner.rebuild new).isSome = true) :
    (shape.rebuild (Value.setAt (Path.ofNames names) new v)).isSome = true := by
  induction names generalizing shape v with
  | nil =>
    obtain rfl : shape = inner := reached
    exact fits
  | cons name rest ih =>
    obtain ⟨middle, enters, onward⟩ := reached
    -- The last field is set, and the part behind every other one is changed.
    cases rest with
    | nil =>
      obtain rfl : middle = inner := onward
      obtain ⟨given, rfl⟩ : ∃ given, v = .object given := by
        cases v <;> simp_all [Value.HasPlace, Value.Admits]
      refine enters.rebuild_isSome along.here accepted (fun other listed => ?_)
        (fun other different => Keyed.get?_put_of_ne different.symm _ _)
        (Keyed.get?_put_self _ _ _) fits
      obtain ⟨entry, stored, rfl⟩ := List.mem_map.1 listed
      rcases Keyed.mem_put stored with rfl | old
      · exact .inl rfl
      · exact .inr (List.mem_map.2 ⟨entry, old, rfl⟩)
    | cons next later =>
      obtain ⟨part, first, inside⟩ := place
      obtain ⟨given, rfl, held⟩ := Value.exists_object_of_step? first
      obtain ⟨w, rebuilt⟩ := Option.isSome_iff_exists.1 accepted
      obtain ⟨_, settled, _, rebuiltPart, _⟩ := enters.stands along.here rebuilt held
      refine enters.rebuild_isSome along.here accepted
        (fun other listed => .inr (by rwa [Keyed.map_fst_modify] at listed))
        (fun other different => Keyed.get?_modify_of_ne different.symm _ _)
        (by rw [Keyed.get?_modify_self, held, Option.map_some]) ?_
      exact ih onward (along.2 _ enters.step) (Option.isSome_of_eq_some rebuiltPart) inside

end Shape

end Triversion
