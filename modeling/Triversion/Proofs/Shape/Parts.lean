import Triversion.Proofs.Shape.Mould

/-!
Parts of what is rebuilt.

A rebuilt value has the keys and the positions of the value it is rebuilt from. Of its fields some
may be completed by their defaults, and only a field that is left out by default may be missing.
-/

namespace Triversion.Shape

variable {shape inner : Shape} {segment : Segment} {v w settled : Value}

/-- The part behind a step is rebuilt as what stands behind the same step. -/
theorem Step.rebuild (step : Step segment shape inner)
    (anchored : shape.holds isAnchored = true) (rebuilt : shape.rebuild v = some w)
    {part : Value} (found : v.step? segment = some part)
    (stands : w.step? segment = some settled) : inner.rebuild part = some settled := by
  -- Some shape is behind the step, and a step leads to one shape only.
  obtain ⟨other, another, same⟩ := rebuild_step? anchored rebuilt found stands
  rwa [step.unique another (holds_mono (fun _ => isAnchored.declaresOnce) anchored)]

/-- The part at the end of a route is rebuilt as what stands at the end of the same route. -/
theorem Leads.rebuild {path : Path} (leads : Leads path shape inner)
    (along : AnchoredAlong path shape) (rebuilt : shape.rebuild v = some w)
    {part : Value} (found : v.at? path = some part) (stands : w.at? path = some settled) :
    inner.rebuild part = some settled := by
  obtain ⟨other, another, same⟩ := rebuild_at? along rebuilt found stands
  rwa [leads.unique another along]

/-- A key or a position of what is rebuilt leads to a part of what it is rebuilt from. -/
theorem Enters.exists_part (enters : Enters segment shape inner)
    (noField : ∀ name, segment ≠ .field name) (rebuilt : shape.rebuild v = some w)
    (stands : w.step? segment = some settled) : ∃ part, v.step? segment = some part := by
  induction enters with
  | optional _ ih =>
    rw [Shape.rebuild] at rebuilt
    split at rebuilt
    · obtain rfl := Option.some.inj rebuilt
      simp [Value.step?] at stands
    · exact ih noField rebuilt stands
  | @item shape i =>
    cases v with
    | array items =>
      obtain ⟨results, passed, rfl⟩ := Option.map_eq_some_iff.1 (by rwa [Shape.rebuild] at rebuilt)
      obtain ⟨part, found, _⟩ := exists_getElem?_of_mapM passed stands
      exact ⟨part, found⟩
    | _ => simp [Shape.rebuild] at rebuilt
  | key k decimalKeys shape =>
    cases v with
    | object entries =>
      simp only [Shape.rebuild] at rebuilt
      split at rebuilt
      · simp at rebuilt
      · obtain ⟨results, passed, rfl⟩ := Option.map_eq_some_iff.1 rebuilt
        -- Rebuilding keeps the keys of a map.
        have same := get?_of_mapM passed k
        rw [show Keyed.get? k results = some settled from stands] at same
        obtain ⟨part, found, _⟩ := Option.map_eq_some_iff.1 same
        exact ⟨part, found⟩
    | _ => simp [Shape.rebuild] at rebuilt
  -- A field may have come in by its default, so it is left out here.
  | field member => exact absurd rfl (noField _)

/-- A sequence of items of a shape is accepted if each of its items is. -/
theorem Enters.rebuild_array_isSome {i : Nat} (enters : Enters (.index i) shape inner)
    {items : List Value} : (shape.rebuild (.array items)).isSome = true ↔
      ∀ item ∈ items, (inner.rebuild item).isSome = true := by
  generalize position : Segment.index i = segment at enters
  induction enters with
  | optional _ ih => exact ih position
  | @item inner i =>
    rw [Shape.rebuild, Option.isSome_map]
    exact mapM_isSome_iff
  | key | field => cases position

/-- What a position leads into is rebuilt as a sequence, unless it is null. -/
theorem Enters.exists_array {i : Nat} (enters : Enters (.index i) shape inner)
    (rebuilt : shape.rebuild v = some w) (filled : v.isNull = false) :
    ∃ items, w = .array items := by
  generalize position : Segment.index i = segment at enters
  induction enters with
  | optional _ ih =>
    rw [Shape.rebuild, if_neg (by simp [filled])] at rebuilt
    exact ih rebuilt position
  | item =>
    cases v with
    | array items =>
      obtain ⟨kept, _, rfl⟩ := Option.map_eq_some_iff.1 (by rwa [Shape.rebuild] at rebuilt)
      exact ⟨kept, rfl⟩
    | _ => simp [Shape.rebuild] at rebuilt
  | key | field => cases position

/-- Null is rebuilt as null, if it is rebuilt at all. -/
theorem rebuild_null (anchored : shape.holds isAnchored = true)
    (rebuilt : shape.rebuild .null = some w) : w = .null := by
  cases shape with
  | optional shape | unit => exact (Option.some.inj rebuilt).symm
  | any | tuple shapes => simp [holds, isAnchored] at anchored
  | _ => simp [rebuild, rebuildFloat, rebuildChoice] at rebuilt

/-- A field that a written struct leaves out, and that is not given, is left out again. -/
theorem step?_of_missing (anchored : shape.holds isAnchored = true) {old given : Fields}
    (fixed : shape.rebuild (.object old) = some (.object old)) {name : String}
    (missing : Keyed.get? name old = none) (rebuilt : shape.rebuild (.object given) = some w)
    (gone : Keyed.get? name given = none) : w.step? (.field name) = none := by
  induction shape using inductionOn with
  | optional shape ih => exact ih anchored fixed rebuilt
  | map decimalKeys shape =>
    simp only [rebuild] at rebuilt
    split at rebuilt
    · simp at rebuilt
    · obtain ⟨results, passed, rfl⟩ := Option.map_eq_some_iff.1 rebuilt
      have same := get?_of_mapM passed name
      rw [gone, Option.map_none] at same
      exact Option.map_eq_none_iff.1 same.symm
  | record rule fields =>
    have reads := isAnchored.readsAll anchored
    obtain ⟨forgets, distinct, unpinned⟩ := readsAll_iff.1 reads
    -- The old struct tells which fields are left out when they hold their defaults.
    obtain ⟨_, same, before⟩ := rebuilds_of_fixed forgets distinct fixed
    obtain rfl := Value.object.inj same
    obtain ⟨kept, rfl, rebuilds⟩ := (rebuild_object_iff forgets distinct).1 rebuilt
    refine Option.eq_none_iff_forall_ne_some.2 fun v stands => ?_
    -- What stands there would be the default, which is not kept.
    obtain ⟨field, member, rfl⟩ := rebuilds.exists_field stands
    obtain ⟨found, keeps⟩ := rebuilds.of_get? member stands
    rw [declaredValue, unpinned field member] at found
    simp only [gone] at found
    split at found
    · rw [← Option.some.inj found, before.keeps_initial reads member missing] at keeps
      exact Bool.noConfusion keeps
    · simp at found
  | any | tuple shapes => simp [holds, isAnchored] at anchored
  | choice words =>
    simp only [rebuild, rebuildChoice] at fixed
    split at fixed <;> simp at fixed
  | _ => simp [rebuild, rebuildFloat, Value.isNull] at fixed

/-- Of a shape all values are of one kind, apart from null. -/
theorem Moulds.kind {there : Value} (moulds : shape.Moulds there) (filled : there.isNull = false)
    (rebuilt : shape.rebuild v = some w) (present : w.isNull = false) :
    there.isArray = w.isArray ∧ there.isObject = w.isObject := by
  induction moulds with
  | absent | unit => simp [Value.isNull] at filled
  | present _ ih =>
    rw [rebuild] at rebuilt
    split at rebuilt
    · obtain rfl := Option.some.inj rebuilt
      simp [Value.isNull] at present
    · exact ih filled rebuilt
  | list _ _ =>
    cases v with
    | array items =>
      obtain ⟨results, _, rfl⟩ := Option.map_eq_some_iff.1 (by rwa [rebuild] at rebuilt)
      exact ⟨rfl, rfl⟩
    | _ => simp [rebuild] at rebuilt
  | map _ _ _ =>
    cases v with
    | object entries =>
      simp only [rebuild] at rebuilt
      split at rebuilt
      · simp at rebuilt
      · obtain ⟨results, _, rfl⟩ := Option.map_eq_some_iff.1 rebuilt
        exact ⟨rfl, rfl⟩
    | _ => simp [rebuild] at rebuilt
  | record _ _ _ _ _ =>
    -- A struct may be given as an object or by position, and is an object either way.
    simp only [rebuild] at rebuilt
    split at rebuilt
    · split at rebuilt
      · simp at rebuilt
      · obtain ⟨results, _, rfl⟩ := Option.map_eq_some_iff.1 rebuilt
        exact ⟨rfl, rfl⟩
    · split at rebuilt
      · obtain ⟨results, _, rfl⟩ := Option.map_eq_some_iff.1 rebuilt
        exact ⟨rfl, rfl⟩
      · simp at rebuilt
    · simp at rebuilt
  | choice words word =>
    -- Choices and numbers are neither sequences nor objects.
    simp only [rebuild, rebuildChoice] at rebuilt
    split at rebuilt <;> simp at rebuilt <;> exact rebuilt.2 ▸ ⟨rfl, rfl⟩
  | float d =>
    simp only [rebuild, rebuildFloat] at rebuilt
    split at rebuilt <;> simp at rebuilt
    · exact rebuilt ▸ ⟨rfl, rfl⟩
    · obtain ⟨d, _, rfl⟩ := rebuilt
      exact ⟨rfl, rfl⟩
  | integer low high i =>
    simp only [rebuild] at rebuilt
    split at rebuilt <;> simp at rebuilt
    exact rebuilt.2 ▸ ⟨rfl, rfl⟩
  | bool | string =>
    cases v <;> simp [rebuild] at rebuilt
    exact rebuilt ▸ ⟨rfl, rfl⟩

end Triversion.Shape
