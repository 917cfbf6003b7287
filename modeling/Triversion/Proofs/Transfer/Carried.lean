import Triversion.Proofs.Shape.Akin
import Triversion.Proofs.Shape.Rewriting
import Triversion.Proofs.Transfer.Drawn
import Triversion.Proofs.Transfer.NoSilentLoss

/-!
What a copy carries over from a record type to another one.

A copy that loses nothing leaves every field that both types have as the source has it. Copied once
more, a source whose fields are all carried over changes nothing.
-/

namespace Triversion

/--
What a copy that loses nothing leaves under a name, given what both sides hold there.

Ordinary fields are as in the source, or blank if the destination lacks them; of a bookkeeping list
the names are left that the destination knows.
-/
def Carries (known : List String) (name : String) : (given there : Option Value) → Prop
  | none, _ => True
  | some v, none => isBookkeeping name = true ∨ v.isBlank = true
  | some v, some old =>
    if isBookkeeping name then mergedList known (some v) old = old else old = v

instance decidableCarries (known : List String) (name : String) :
    (given there : Option Value) → Decidable (Carries known name given there)
  | none, _ => isTrue trivial
  | some v, none => inferInstanceAs (Decidable (isBookkeeping name = true ∨ v.isBlank = true))
  | some v, some old =>
    inferInstanceAs (Decidable (if isBookkeeping name then mergedList known (some v) old = old
      else old = v))

namespace Carries

variable {known : List String} {name : String} {v old : Value}

/-- An ordinary field that both sides have is the same in both. -/
theorem eq (carries : Carries known name (some v) (some old))
    (ordinary : isBookkeeping name = false) : old = v := by
  rwa [Carries, ordinary, if_neg Bool.false_ne_true] at carries

/-- An ordinary field that the destination lacks says nothing. -/
theorem isBlank (carries : Carries known name (some v) none)
    (ordinary : isBookkeeping name = false) : v.isBlank = true :=
  carries.resolve_left (by simp [ordinary])

/-- A bookkeeping list is merged to what it is. -/
theorem merged (carries : Carries known name (some v) (some old))
    (list : isBookkeeping name = true) : mergedList known (some v) old = old := by
  rwa [Carries, list, if_pos rfl] at carries

end Carries

/-- A record type whose values are replaced by copies of their type, and kept when written. -/
structure Codec.Replaceable {δ : Type} (codec : Codec δ) (rule : RecordRule)
    (declared : List (FieldRule × Shape)) : Prop where
  follows : codec.Follows (.record rule declared)
  replaceable : (Shape.record rule declared).isReplaceable = true
  keeps : ∀ v x, v.WellFormed → codec.decode v = some x → ∃ w, codec.Restores x w

namespace Shape

/-- A value that a field of an akin shape has written, well named. -/
def Lends (shape : Shape) (v : Value) : Prop :=
  ∃ other, Akin other shape ∧ other.isReplaceable = true ∧ other.rebuild v = some v ∧
    other.wellNamed v = true

/-- What is lent by an akin shape is in the mould of the shape, and well named. -/
theorem Lends.overlays {shape : Shape} {v : Value} (lends : shape.Lends v)
    (formed : v.WellFormed) : shape.Moulds v ∧ shape.wellNamed v = true := by
  obtain ⟨other, akin, replaceable, fixed, named⟩ := lends
  have steady := isReplaceable.steady replaceable
  -- Akin shapes have one mould and the same names.
  have moulds := moulds_of_rebuild (anchored_of_steady steady) formed fixed
  exact ⟨akin.moulds steady moulds, akin.wellNamed named⟩

end Shape

/-- Fields of a source that a record type could take over, but for the bounds of numbers. -/
structure Suits (rule : RecordRule) (declared : List (FieldRule × Shape)) (given : Fields) :
    Prop where
  formed : (Value.object given).WellFormed
  lends : ∀ field ∈ declared, isBookkeeping field.1.name = false → ∀ v,
    Keyed.get? field.1.name given = some v → field.2.Lends v
  lists : ∀ name, isBookkeeping name = true → ∀ v, Keyed.get? name given = some v →
    ∃ texts, v = .strings texts
  admitted : rule.unknown = .rejected → ∀ name v, Keyed.get? name given = some v →
    name ∈ Shape.names declared

namespace Codec.Replaceable

open Shape

variable {δ : Type} {codec : Codec δ} {rule : RecordRule} {declared : List (FieldRule × Shape)}
  (type : codec.Replaceable rule declared)

include type

/-- Such a type writes all its fields, each of a replaceable shape, and names in its lists. -/
theorem parts : writesAll rule declared = true ∧
    (∀ field ∈ declared, field.2.isReplaceable = true) ∧
    ∀ field ∈ declared, isBookkeeping field.1.name = true → field.2.isNameList = true :=
  isReplaceable_record type.replaceable

/-- What such a type has written is in the mould of its record, and has every field of it. -/
theorem field_of_restores {x : δ} {fields : Fields} (restores : codec.Restores x (.object fields)) :
    (Shape.record rule declared).Moulds (.object fields) ∧
      ∀ field ∈ declared, ∃ v, Keyed.get? field.1.name fields = some v ∧
        field.2.rebuild v = some v := by
  have fixed := restores.fixed type.follows
  have anchored := anchored_of_steady (isReplaceable.steady type.replaceable)
  refine ⟨moulds_of_rebuild anchored restores.wellFormed fixed, fun field member => ?_⟩
  obtain ⟨all, _, _⟩ := type.parts
  obtain ⟨forgets, distinct, _⟩ := writesAll_iff.1 all
  -- A written struct is rebuilt field by field as it is.
  obtain ⟨_, same, rebuilds⟩ := rebuilds_of_fixed forgets distinct fixed
  obtain rfl := Value.object.inj same
  obtain ⟨v, held, rebuilt⟩ := rebuilds.get? all member
  exact ⟨v, held, rebuilt v held⟩

/-- What such a type rebuilds is kept, and written with exactly the declared names. -/
theorem exists_written {v : Value} {x : δ} (formed : v.WellFormed)
    (rebuilt : codec.decode v = some x) :
    ∃ fields, codec.Restores x (.object fields) ∧
      (Shape.record rule declared).rebuild v = some (.object fields) := by
  -- The value is kept, and what it is written as is what the type rebuilds.
  obtain ⟨w, restores⟩ := type.keeps v x formed rebuilt
  obtain ⟨all, _, _⟩ := type.parts
  obtain ⟨forgets, distinct, _⟩ := writesAll_iff.1 all
  obtain ⟨fields, rfl, _⟩ := rebuilds_of_fixed forgets distinct (restores.fixed type.follows)
  refine ⟨fields, restores, ?_⟩
  rw [← type.follows]
  simp only [Codec.roundTrip, rebuilt, restores.written, Except.toOption]

end Codec.Replaceable

namespace Transfer

open Shape

variable {σ δ : Type} {source : Codec σ} {codec : Codec δ} {rule : RecordRule}
  {declared : List (FieldRule × Shape)} {src : σ} {dest new : δ} {there given : Fields}

section Merge

variable (type : codec.Replaceable rule declared) (old : codec.Restores dest (.object there))
  (suits : Suits rule declared given)

include type old suits

/-- Every ordinary field that the source has is taken over as it is. -/
theorem takes_over_merge :
    (∀ name, isBookkeeping name = false →
      Keyed.get? name (merge .none codec there given).result =
        (Keyed.get? name given).or (Keyed.get? name there)) ∧
      (merge .none codec there given).journal.losses = [] := by
  obtain ⟨all, inside, _⟩ := type.parts
  -- Each field of the destination is the ground that its part of the source is merged into.
  have ground := ground_of_restores type.follows type.replaceable old
  refine takes_over_mergeObjects suits.formed.distinct fun name ordinary before v found held => ?_
  obtain ⟨field, member, rfl⟩ := List.mem_map.1 (ground.moulds.mem_names found)
  -- The source field is in the mould of the destination field that it is merged into.
  have formed := suits.formed.of_get? held
  obtain ⟨mould, named⟩ := (suits.lends field member ordinary v held).overlays formed
  have overlay : Overlay (.record rule declared) (mapPaths codec.roundTrip there) field.2
      (Path.root.field field.1.name) before v :=
    ⟨ground.field all member found, formed, mould, named⟩
  exact overlay.replaces_mergeInto (inside field member)

/-- A bookkeeping list takes over the names that the destination declares. -/
theorem get?_merge_list {list : String} (listed : isBookkeeping list = true) :
    Keyed.get? list (merge .none codec there given).result =
      (Keyed.get? list there).map (mergedList (names declared) (Keyed.get? list given)) := by
  obtain ⟨all, _, _⟩ := type.parts
  obtain ⟨moulds, held⟩ := type.field_of_restores old
  rw [merge, get?_mergeObjects_list suits.formed.distinct listed]
  -- The destination has exactly the names that its type declares.
  have same : ∀ name, name ∈ there.map (·.1) ↔ name ∈ names declared := by
    intro name
    constructor
    · intro member
      obtain ⟨⟨_, v⟩, stored, rfl⟩ := List.mem_map.1 member
      exact moulds.mem_names (Keyed.get?_of_mem old.wellFormed.distinct stored)
    · intro known
      obtain ⟨field, member, rfl⟩ := List.mem_map.1 known
      obtain ⟨v, found, _⟩ := held field member
      exact List.mem_map.2 ⟨_, Keyed.mem_of_get? found, rfl⟩
  refine congrArg ((Keyed.get? list there).map ·) (funext fun before => ?_)
  unfold mergedList
  split
  · exact congrArg Value.array (keptNames_congr same _)
  · rfl

/-- A merged field comes from one of both sides, so a strict type knows its name. -/
theorem known_merged (rejects : rule.unknown = .rejected) {name : String} {v : Value}
    (found : Keyed.get? name (merge .none codec there given).result = some v) :
    name ∈ names declared := by
  obtain ⟨moulds, _⟩ := type.field_of_restores old
  cases list : isBookkeeping name with
  | true =>
    rw [get?_merge_list type old suits list] at found
    obtain ⟨before, foundThere, _⟩ := Option.map_eq_some_iff.1 found
    exact moulds.mem_names foundThere
  | false =>
    rw [(takes_over_merge type old suits).1 _ list] at found
    cases taken : Keyed.get? name given with
    | some w => exact suits.admitted rejects name w taken
    | none =>
      rw [taken, Option.none_or] at found
      exact moulds.mem_names found

variable (fits : ∀ field ∈ declared, isBookkeeping field.1.name = false → ∀ v,
  Keyed.get? field.1.name given = some v → (field.2.rebuild v).isSome = true)

include fits

/-- If no number is out of bounds, every declared field is merged to a value that is kept. -/
theorem fixed_merged {field : FieldRule × Shape} (member : field ∈ declared) : ∃ v,
    Keyed.get? field.1.name (merge .none codec there given).result = some v ∧
      field.2.rebuild v = some v := by
  obtain ⟨_, inside, lists⟩ := type.parts
  obtain ⟨_, held⟩ := type.field_of_restores old
  obtain ⟨before, found, fixed⟩ := held field member
  cases list : isBookkeeping field.1.name with
  | false =>
    rw [(takes_over_merge type old suits).1 _ list, found]
    cases taken : Keyed.get? field.1.name given with
    | none => exact ⟨before, rfl, fixed⟩
    | some v =>
      -- What is taken over is accepted, and in its mould it is rebuilt as it is.
      have formed := suits.formed.of_get? taken
      obtain ⟨mould, _⟩ := (suits.lends field member list v taken).overlays formed
      obtain ⟨w, rebuilt⟩ := Option.isSome_iff_exists.1 (fits field member list v taken)
      obtain rfl := eq_of_moulds (isReplaceable.steady (inside field member)) formed mould rebuilt
      exact ⟨w, rfl, rebuilt⟩
  | true =>
    rw [get?_merge_list type old suits list, found]
    have isList := lists field member list
    cases taken : Keyed.get? field.1.name given with
    | none => exact ⟨before, rfl, fixed⟩
    | some v =>
      obtain ⟨texts, rfl⟩ := suits.lists _ list v taken
      -- Whatever is kept of a list of names is one.
      obtain ⟨kept, same⟩ := exists_keptNames (names declared) (texts.map .string)
      refine ⟨Value.strings kept, ?_, rebuild_strings isList kept⟩
      exact congrArg (some ∘ Value.array) same

/-- If no number is out of bounds, the destination type accepts every merged field as it is. -/
theorem rebuild_merge :
    ∃ now, (Shape.record rule declared).rebuild (.object (merge .none codec there given).result) =
        some (.object now) ∧ Keyed.Ascending now ∧
      (∀ name, name ∉ names declared → Keyed.get? name now = none) ∧
      ∀ name ∈ names declared,
        Keyed.get? name now = Keyed.get? name (merge .none codec there given).result := by
  obtain ⟨all, _, _⟩ := type.parts
  obtain ⟨forgets, distinct, each⟩ := writesAll_iff.1 all
  have accepted : ((Shape.record rule declared).rebuild
      (.object (merge .none codec there given).result)).isSome = true := by
    refine (rebuild_record_isSome distinct).2 ⟨fun rejects => ?_, fun field member => ?_⟩
    · refine (undeclared_eq_nil_iff fun field member => (each field member).2).2
        fun name listed => ?_
      obtain ⟨v, found⟩ := Option.ne_none_iff_exists'.1 fun missing =>
        Keyed.get?_eq_none_iff.1 missing listed
      exact known_merged type old suits rejects found
    · obtain ⟨v, found, fixed⟩ := fixed_merged type old suits fits member
      rw [declaredValue, (each field member).2]
      simp [found, fixed]
  obtain ⟨w, rebuilt⟩ := Option.isSome_iff_exists.1 accepted
  obtain ⟨now, rfl, rebuilds⟩ := (rebuild_object_iff forgets distinct).1 rebuilt
  refine ⟨now, rebuilt, rebuilds.sorted, rebuilds.declared, fun name known => ?_⟩
  obtain ⟨field, member, rfl⟩ := List.mem_map.1 known
  obtain ⟨v, found, fixed⟩ := fixed_merged type old suits fits member
  obtain ⟨w, stored, same⟩ := rebuilds.get? all member
  rw [stored, found, ← same v found, fixed]

/-- A candidate whose numbers are in bounds is rebuilt as merged, and nothing is lost of it. -/
theorem candidate_of_fits : candidate .none codec there given =
    (.object (merge .none codec there given).result, []) := by
  obtain ⟨now, accepted, _⟩ := rebuild_merge type old suits fits
  have rebuilt : (codec.decode (.object (merge .none codec there given).result)).isSome = true := by
    apply Option.isSome_iff_ne_none.2
    intro refused
    rw [← type.follows] at accepted
    simp [Codec.roundTrip, refused] at accepted
  simp only [candidate, rebuilt, if_true, (takes_over_merge type old suits).2]

end Merge

section Carried

variable (type : codec.Replaceable rule declared) (old : codec.Restores dest (.object there))
  (carries : ∀ name,
    Carries (names declared) name (Keyed.get? name given) (Keyed.get? name there))

include type old carries

variable (suits : Suits rule declared given)

include suits

end Carried

section Copy

/-- A copy between written values that succeeds has rebuilt the candidate that they make. -/
theorem exists_candidate {losses : List Loss}
    (writtenThere : codec.encode dest = .ok (.object there))
    (written : source.encode src = .ok (.object given))
    (copied : copy .none source codec src dest = ⟨.ok new, losses⟩) :
    ∃ whole lost settled maps, candidate .none codec there given = (whole, lost) ∧
      codec.decode whole = some new ∧ codec.encode new = .ok settled ∧
      losses = lost ++ forgotten maps settled Path.root whole := by
  obtain ⟨_, _, whole, lost, settled, maps, encoded, encodedThere, chosen, rebuilt, again, all⟩ :=
    copy_eq_ok copied
  obtain rfl := Value.object.inj (Except.ok.inj (encoded.symm.trans written))
  obtain rfl := Value.object.inj (Except.ok.inj (encodedThere.symm.trans writtenThere))
  exact ⟨whole, lost, settled, maps, chosen, rebuilt, again, all⟩

variable {losses : List Loss} (type : codec.Replaceable rule declared)
  (old : codec.Restores dest (.object there)) (written : source.encode src = .ok (.object given))

include type old written

/-- A copy leaves what the source has no name for, whatever it loses. -/
theorem get?_of_copy (formed : (Value.object given).WellFormed)
    (copied : copy .none source codec src dest = ⟨.ok new, losses⟩) :
    ∃ now, codec.Restores new (.object now) ∧
      ∀ name, Keyed.get? name given = none → Keyed.get? name now = Keyed.get? name there := by
  obtain ⟨whole, lost, settled, maps, chosen, rebuilt, _, _⟩ :=
    exists_candidate old.written written copied
  obtain ⟨_, _, formedWhole, _⟩ := candidate_settled old.wellFormed formed chosen rebuilt
  obtain ⟨now, restores, again⟩ := type.exists_written formedWhole rebuilt
  refine ⟨now, restores, fun name missing => ?_⟩
  obtain ⟨all, _, _⟩ := type.parts
  obtain ⟨forgets, distinct, _⟩ := writesAll_iff.1 all
  obtain ⟨mouldsNow, _⟩ := type.field_of_restores restores
  obtain ⟨moulds, held⟩ := type.field_of_restores old
  cases found : Keyed.get? name there with
  | none =>
    -- The type writes the same names before and after.
    apply Option.eq_none_iff_forall_not_mem.2
    intro v stored
    obtain ⟨field, member, rfl⟩ := List.mem_map.1 (mouldsNow.mem_names stored)
    obtain ⟨before, stands, _⟩ := held field member
    simp [stands] at found
  | some before =>
    obtain ⟨field, member, rfl⟩ := List.mem_map.1 (moulds.mem_names found)
    have filled : there ≠ [] := by
      rintro rfl
      simp [Keyed.get?] at found
    -- The name is not taken, so the candidate has what was there before.
    have sits := sits_merge .none codec old.wellFormed formed filled
    have drawn := drawn_candidate old.wellFormed formed chosen rebuilt
    have struct : MergeCall.Composes ⟨.none, mapPaths codec.roundTrip there⟩
        ⟨.object there, Path.root, .object given⟩ := .struct filled rfl
    obtain ⟨part, stands, _, isObject⟩ := sits.exists_part drawn struct
    obtain rfl : whole = part := Option.some.inj stands
    obtain ⟨entries, rfl⟩ : ∃ entries, whole = .object entries := by
      cases whole <;> simp_all [Value.isObject]
    have untaken : Keyed.get? field.1.name
        (takenFields ⟨.none, mapPaths codec.roundTrip there⟩ Path.root given) = none := by
      rw [get?_takenFields, missing]
      split <;> rfl
    have left := sits.of_untaken drawn filled rfl stands untaken
    have same : Keyed.get? field.1.name entries = some before := by
      rw [left, found, Option.map_some, leftField, missing]
      split <;> rfl
    obtain ⟨_, isNow, rebuilds⟩ := (rebuild_object_iff forgets distinct).1 again
    obtain rfl := Value.object.inj isNow
    obtain ⟨v, storedNow, fixes⟩ := rebuilds.get? all member
    obtain ⟨_, stored, fixed⟩ := held field member
    obtain rfl := Option.some.inj (stored.symm.trans found)
    rw [storedNow, ← fixes _ same, fixed]

variable (suits : Suits rule declared given)

include suits

/-- A copy that loses nothing has no number out of bounds. -/
theorem fits_of_copy (copied : copy .none source codec src dest = ⟨.ok new, []⟩) :
    ∀ field ∈ declared, isBookkeeping field.1.name = false → ∀ v,
      Keyed.get? field.1.name given = some v → (field.2.rebuild v).isSome = true := by
  obtain ⟨whole, lost, settled, maps, chosen, rebuilt, again, none⟩ :=
    exists_candidate old.written written copied
  -- Nothing is lost in the candidate either.
  obtain ⟨rfl, _⟩ := List.append_eq_nil_iff.1 none.symm
  obtain ⟨all, inside, _⟩ := type.parts
  intro field member ordinary v taken
  apply Option.isSome_iff_ne_none.2
  intro refused
  -- A refused field holds a number that must then be found in the candidate.
  obtain ⟨other, akin, replaceable, fixed, _⟩ := suits.lends field member ordinary v taken
  obtain ⟨route, scalar, has, ordinaryRoute, each⟩ :=
    akin.exists_refused replaceable (inside field member) fixed refused
  have inGiven : (Value.object given).HasScalar (field.1.name :: route) scalar :=
    Value.HasScalar.object_iff.2 ⟨v, taken, has⟩
  rcases candidate_keeps_scalar old.wellFormed suits.formed chosen rebuilt
    (List.forall_mem_cons.2 ⟨ordinary, ordinaryRoute⟩) inGiven with stays | ⟨_, listed, _⟩
  · -- With this number the candidate is refused.
    obtain ⟨names, _⟩ | ⟨entries, _, _, part, rfl, split, found, hasPart⟩ := stays.cases
    · simp at names
    obtain ⟨rfl, rfl⟩ := List.cons.inj split
    have refusedWhole := Akin.refused_of_field all member found (each part hasPart)
    rw [← type.follows] at refusedWhole
    simp [Codec.roundTrip, rebuilt, again, Except.toOption] at refusedWhole
  · simp at listed

/-- A copy that loses nothing carries all fields over. -/
theorem carries_of_copy (copied : copy .none source codec src dest = ⟨.ok new, []⟩) :
    ∃ now, codec.Restores new (.object now) ∧ ∀ name,
      Carries (names declared) name (Keyed.get? name given) (Keyed.get? name now) := by
  have fits := fits_of_copy type old written suits copied
  obtain ⟨now, accepted, _, undeclared, stands⟩ := rebuild_merge type old suits fits
  obtain ⟨ordinaryFields, _⟩ := takes_over_merge type old suits
  obtain ⟨whole, lost, settled, maps, chosen, rebuilt, again, none⟩ :=
    exists_candidate old.written written copied
  -- The candidate is the merge itself, since all numbers are in bounds.
  obtain ⟨rfl, rfl⟩ := Prod.mk.inj (chosen.symm.trans (candidate_of_fits type old suits fits))
  obtain ⟨_, _, formedWhole, _⟩ := candidate_settled old.wellFormed suits.formed chosen rebuilt
  obtain ⟨fields, restores, same⟩ := type.exists_written formedWhole rebuilt
  obtain rfl := Value.object.inj (Option.some.inj (same.symm.trans accepted))
  obtain ⟨moulds, _⟩ := type.field_of_restores restores
  refine ⟨fields, restores, fun name => ?_⟩
  cases taken : Keyed.get? name given with
  | none => trivial
  | some v =>
    cases found : Keyed.get? name fields with
    | some before =>
      have merged := stands name (moulds.mem_names found)
      rw [found] at merged
      cases list : isBookkeeping name with
      | false =>
        rw [Carries, list, if_neg Bool.false_ne_true]
        rw [ordinaryFields name list, taken] at merged
        exact Option.some.inj merged
      | true =>
        rw [Carries, list, if_pos rfl]
        rw [get?_merge_list type old suits list, taken] at merged
        -- What is kept of the source's names is all that there is now.
        obtain ⟨texts, rfl⟩ := suits.lists _ list v taken
        obtain ⟨_, _, kept⟩ := Option.map_eq_some_iff.1 merged.symm
        exact kept
    | none =>
      cases list : isBookkeeping name with
      | true => exact .inl list
      | false =>
        -- What the new destination lacks is forgotten, and would be reported if it said anything.
        have entered : Keyed.get? name (merge .none codec there given).result = some v := by
          rw [ordinaryFields name list, taken, Option.some_or]
        have looked := forgottenInFields_of_mem maps (isMapAt maps Path.root) fields Path.root
          (Keyed.mem_of_get? entered) list
        obtain rfl := Except.ok.inj (again.symm.trans restores.written)
        simp only [List.nil_append, forgotten] at none
        rw [← none, found] at looked
        cases blank : v.isBlank with
        | true => exact .inr blank
        | false => simp [lossOf, blank] at looked

end Copy

end Transfer

end Triversion
