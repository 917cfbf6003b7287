import Triversion.Catalog
import Triversion.Proofs.Transfer.Drawn
import Triversion.Proofs.Transfer.Forgotten
import Triversion.Proofs.Transfer.Origin

/-!
Where the values that a copy reports stand in the source.

What a merge or a salvage reports stands in the source where it is reported. What the destination
type forgets is looked for in the settled candidate, where the items of a sequence may have moved
up into the places of items that were refused.
-/

namespace Triversion

/-- A sequence of the source that has fewer items in another value. -/
def Value.Shortened (given settled : Value) (path : Path) : Prop :=
  ∃ items kept, given.at? path = some (.array items) ∧ settled.at? path = some (.array kept) ∧
    kept.length < items.length

/-- A part of the source, at its place or moved up in a sequence that has lost items. -/
def Value.Supplies (given settled : Value) (path : Path) (v : Value) : Prop :=
  given.at? path = some v ∨
    ∃ before j i after, path = before ++ .index j :: after ∧ j < i ∧
      given.at? (before ++ .index i :: after) = some v ∧ given.Shortened settled before

/-- An item of a part of a sequence stands in the whole sequence, not further in front. -/
theorem exists_getElem?_of_sublist {α : Type} {kept items : List α} (part : kept.Sublist items)
    {j : Nat} {item : α} (found : kept[j]? = some item) : ∃ i, j ≤ i ∧ items[i]? = some item := by
  induction part generalizing j with
  | slnil => simp at found
  | cons first _ ih =>
    obtain ⟨i, behind, held⟩ := ih found
    exact ⟨i + 1, Nat.le_succ_of_le behind, held⟩
  | cons_cons first _ ih =>
    cases j with
    | zero => exact ⟨0, Nat.le_refl 0, found⟩
    | succ j =>
      obtain ⟨i, behind, held⟩ := ih found
      exact ⟨i + 1, Nat.succ_le_succ behind, held⟩

/-- A part behind an item of a sequence of which some items are kept. -/
theorem supplies_of_sublist {given settled : Value} {before after : Path} {items kept : List Value}
    {j : Nat} {v : Value} (there : given.at? before = some (.array items))
    (stands : settled.at? before = some (.array kept)) (part : kept.Sublist items)
    (found : settled.at? (before ++ .index j :: after) = some v) :
    given.Supplies settled (before ++ .index j :: after) v := by
  have held : ∀ i,
      given.at? (before ++ .index i :: after) = (items[i]?).bind (Value.at? after) := by
    intro i
    rw [Value.at?_append, there]
    rfl
  rw [Value.at?_append, stands, Option.bind_some] at found
  obtain ⟨item, first, later⟩ := Option.bind_eq_some_iff.1 found
  obtain ⟨i, behind, listed⟩ := exists_getElem?_of_sublist part first
  rcases Nat.lt_or_ge kept.length items.length with fewer | all
  · rcases Nat.eq_or_lt_of_le behind with rfl | moved
    · exact .inl (by rw [held, listed, Option.bind_some, later])
    · exact .inr ⟨before, j, i, after, rfl, moved, by rw [held, listed, Option.bind_some, later],
        items, kept, there, stands, fewer⟩
  · -- A part as long as the whole sequence is the whole sequence.
    obtain rfl := part.eq_of_length_le all
    exact .inl (by rw [held, show kept[j]? = some item from first, Option.bind_some, later])

section Forgotten

open Shape

/-- A loss in a candidate at a route that the shape does not know, while the way to it is kept. -/
structure Loss.Unknown (shape : Shape) (v w : Value) (loss : Loss) (rest : Path) : Prop where
  found : v.at? rest = some loss.value
  filled : loss.value.isBlank = false
  unknown : follow (Path.names rest) shape = none
  kept : ∀ before segment after, rest = before ++ segment :: after →
    ∃ part, w.at? before = some part ∧ part.isArray = segment.isIndex

/-- A loss inside a part is a loss of the whole. -/
theorem Loss.Unknown.step {shape inner : Shape} {v w part settled : Value} {loss : Loss}
    {segment : Segment} {rest : Path} (unknown : loss.Unknown inner part settled rest)
    (once : shape.everywhere declaresOnce = true) (step : Step segment shape inner)
    (first : v.step? segment = some part) (stands : w.step? segment = some settled)
    (kind : w.isArray = segment.isIndex) :
    loss.Unknown shape v w (segment :: rest) := by
  obtain ⟨found, filled, unknown, kept⟩ := unknown
  refine ⟨by rw [Value.at?, first, Option.bind_some, found], filled, ?_, ?_⟩
  · have names : Path.names (segment :: rest) = segment.name?.toList ++ Path.names rest := by
      cases segment <;> rfl
    rw [names, step.follow once, unknown]
  · intro before next after same
    cases before with
    | nil => exact ⟨w, rfl, (List.cons.inj same).1 ▸ kind⟩
    | cons _ before =>
      obtain ⟨rfl, later⟩ := List.cons.inj same
      obtain ⟨inside, leads, alike⟩ := kept before next after later
      exact ⟨inside, by rw [Value.at?, stands, Option.bind_some, leads], alike⟩

/-- Whatever is reported as forgotten stands in the candidate, where the shape knows nothing. -/
theorem unknown_of_forgotten {shape : Shape} (steady : shape.everywhere isSteady = true)
    {v w : Value} (formed : v.WellFormed) (rebuilt : shape.rebuild v = some w) {maps : List Path}
    {path : Path} {loss : Loss} (reported : loss ∈ forgotten maps w path v) :
    ∃ rest, loss.path = path ++ rest ∧ loss.Unknown shape v w rest := by
  have once := everywhere_mono (fun _ => isSteady.declaresOnce) steady
  -- The walk goes down both values at once, along with the shape they have in common.
  induction v using Value.inductionOn generalizing shape w path with
  | array items ih =>
    cases w with
    | array kept =>
      obtain ⟨i, item, settled, found, stands, inside⟩ := mem_forgottenInItems reported
      have member := List.mem_of_getElem? found
      have first : (Value.array items).step? (.index i) = some item := found
      obtain ⟨inner, step, rebuiltItem⟩ :=
        rebuild_step? (holds_of_everywhere (anchored_of_steady steady)) rebuilt first stands
      obtain ⟨rest, route, unknown⟩ := ih item member (step.everywhere steady)
        (Value.wellFormed_array.1 formed item member) rebuiltItem inside (step.everywhere once)
      refine ⟨.index i :: rest, ?_, unknown.step once step found stands rfl⟩
      simp [route, Path.index]
    | _ => simp [forgotten] at reported
  | object fields ih =>
    cases w with
    | object kept =>
      obtain ⟨entry, member, _, inside⟩ := mem_forgottenInFields reported
      have held := Keyed.get?_of_mem formed.distinct member
      have named := name?_entryStep (isMapAt maps path) entry.1
      generalize entryStep (isMapAt maps path) entry.1 = segment at inside named
      have kind : (Value.object kept).isArray = segment.isIndex := by
        cases segment <;> first | rfl | simp [Segment.name?] at named
      have found : (Value.object fields).step? segment = some entry.2 := by
        rw [Value.step?_object, named, Option.bind_some, held]
      cases stands : Keyed.get? entry.1 kept with
      | some settled =>
        rw [stands] at inside
        have standsThere : (Value.object kept).step? segment = some settled := by
          rw [Value.step?_object, named, Option.bind_some, stands]
        obtain ⟨inner, step, rebuiltEntry⟩ :=
          rebuild_step? (holds_of_everywhere (anchored_of_steady steady)) rebuilt found
            standsThere
        obtain ⟨rest, route, unknown⟩ := ih entry member (step.everywhere steady)
          ((Value.wellFormed_object.1 formed).2 entry member) rebuiltEntry inside
          (step.everywhere once)
        refine ⟨segment :: rest, ?_, unknown.step once step found standsThere kind⟩
        rw [route, List.append_assoc, List.singleton_append]
      | none =>
        -- The whole entry is gone, since the shape has no place for its name.
        rw [stands] at inside
        obtain ⟨rfl, filled⟩ := mem_lossOf inside
        refine ⟨[segment], rfl, by rw [Value.at?, found]; rfl, filled, ?_, ?_⟩
        · have names : Path.names [segment] = [entry.1] := by simp [Path.names, named]
          rw [names, follow, under?_of_gone steady rebuilt held stands, Option.bind_none]
        · intro before next after same
          cases before with
          | nil => exact ⟨.object kept, rfl, (List.cons.inj same).1 ▸ kind⟩
          | cons _ before => simp at same
    | _ => simp [forgotten] at reported
  | _ => simp [forgotten] at reported

end Forgotten

section Settled

open Shape

variable {root : Shape} {given settled : Value} {path : Path}

/-- A route that passes through no more than a route of the shape is a route of the shape. -/
theorem Path.Covers.known {other : Path} (covers : path.Covers other)
    (known : (follow other.names root).isSome = true) : (follow path.names root).isSome = true := by
  obtain ⟨before, after, rfl, same⟩ := covers.split
  rw [Path.names_eq_of_bare_eq same]
  exact Path.follow_isSome_of_append known

namespace Merged.Traces

variable {merged : Merged Value} {part : Value}

/-- What a shape does not know was written by the merge. -/
theorem exists_write (traces : merged.Traces root Path.root given)
    (found : merged.result.at? path = some part) (unknown : follow path.names root = none) :
    ∃ write ∈ merged.journal.writes, write.path.Covers path := by
  refine (traces.parts path part found).resolve_right fun known => ?_
  rw [Path.root, List.nil_append, unknown] at known
  simp at known

/-- Behind the place of a write the merged value is the source. -/
theorem below (traces : merged.Traces root Path.root given) {write : Write}
    (member : write ∈ merged.journal.writes) (covers : write.path.Covers path) :
    merged.result.at? path = given.at? path := by
  obtain ⟨before, after, rfl, same⟩ := covers.split
  obtain ⟨rest, route, stands, _⟩ := traces.writes write member
  obtain rfl : write.path = rest := route
  rw [Value.at?_append, Value.at?_append, ← Value.at?_of_bare_eq same,
    ← Value.at?_of_bare_eq same, stands]

/-- What a shape does not know is not on the way to a write. -/
theorem not_covers (traces : merged.Traces root Path.root given)
    (unknown : follow path.names root = none) {write : Write}
    (member : write ∈ merged.journal.writes) (beside : ¬ write.path.Covers path) :
    ¬ path.Covers write.path := by
  intro covers
  obtain ⟨_, _, _, fits⟩ := traces.writes write member
  have known : (follow path.names root).isSome = true := by
    by_cases removes : write.reversal = .remove
    · -- A field that is new to the destination is added to an object that the shape knows.
      obtain ⟨before, name, route, here⟩ := fits.removes removes
      rw [Path.Covers, route, Path.field, List.map_append, List.map_singleton,
        List.prefix_concat_iff] at covers
      rcases covers with same | shorter
      · refine absurd ?_ beside
        refine .of_eq ?_
        rw [route, Path.field, List.map_append, List.map_singleton, same]
      · exact Path.Covers.known shorter here
    · exact covers.known (fits.place removes)
  rw [unknown] at known
  simp at known

/-- However a write has ended, what the shape does not know behind its place is the source's. -/
theorem supplies_of_ends (traces : merged.Traces root Path.root given)
    (formed : merged.result.WellFormed) {bare : Value} {write : Write}
    (member : write ∈ merged.journal.writes) (ends : write.Ends merged.result bare settled)
    (back : bare.at? write.path = write.reversal.leaves) (covers : write.path.Covers path)
    (found : settled.at? path = some part) (unknown : follow path.names root = none) :
    given.Supplies settled path part := by
  have below := traces.below member covers
  obtain ⟨_, _, _, fits⟩ := traces.writes write member
  obtain ⟨before, after, rfl, same⟩ := covers.split
  have here := Value.at?_of_bare_eq same
  -- The place of a write is known unless the write has added a field.
  have strict : write.reversal ≠ .remove → after ≠ [] := by
    rintro stays rfl
    have known := fits.place stays
    rw [Path.names_eq_of_bare_eq same, ← List.append_nil before, unknown] at known
    simp at known
  rw [Value.at?_append, ← here] at found below
  cases ends with
  | again again =>
    rw [again] at found
    exact .inl (below.symm.trans found)
  | back stays =>
    rw [stays, back] at found
    cases reversal : write.reversal with
    | restore v =>
      -- What is restored has the shape of its place, and so would be known.
      obtain ⟨shape, stands⟩ := fits.restores v reversal
      rw [reversal] at found
      have known := stands.covered after part found
      rw [Path.names, List.filterMap_append, ← Path.names, Path.names_eq_of_bare_eq same,
        ← List.filterMap_append, ← Path.names, unknown] at known
      simp at known
    | remove => simp [reversal, Reversal.leaves] at found
    | emptySequence | emptyMap =>
      rw [reversal] at found
      obtain ⟨segment, rest, rfl⟩ := List.exists_cons_of_ne_nil (strict (by simp [reversal]))
      cases segment <;> simp [Reversal.leaves, Value.at?, Value.step?, Keyed.get?] at found
  | items reversal merges stands kept =>
    obtain ⟨segment, rest, rfl⟩ := List.exists_cons_of_ne_nil (strict (by simp [reversal]))
    cases segment with
    | index j =>
      have there := traces.below member (.of_eq same)
      rw [← Value.at?_of_bare_eq same merged.result, merges] at there
      -- The items that stay have moved up by those that were refused.
      refine supplies_of_sublist there.symm ((here settled).symm.trans stands) kept ?_
      rw [Value.at?_append, ← here, found]
    | _ => simp [stands, Value.at?, Value.step?] at found
  | entries reversal merges stands kept =>
    obtain ⟨segment, rest, rfl⟩ := List.exists_cons_of_ne_nil (strict (by simp [reversal]))
    rw [stands, Option.bind_some] at found
    obtain ⟨v, first, later⟩ := Option.bind_eq_some_iff.1 found
    rw [Value.step?_object] at first
    obtain ⟨name, named, held⟩ := Option.bind_eq_some_iff.1 first
    -- An entry that stays stands under its key in the source.
    have listed := Keyed.get?_of_mem (formed.at? merges).distinct (kept (Keyed.mem_of_get? held))
    refine .inl (below.symm.trans ?_)
    rw [merges, Option.bind_some, Value.at?, Value.step?_object, named, Option.bind_some, listed,
      Option.bind_some, later]

end Merged.Traces

namespace Transfer

variable {δ : Type} {codec : Codec δ} {fields given : Fields}

/-- What the shape does not know in a settled candidate is the source's. -/
theorem candidate_supplies {root : Shape} (formedThere : (Value.object fields).WellFormed)
    (formed : (Value.object given).WellFormed)
    (traces : ((merge .none codec fields given).map .object).Traces root Path.root (.object given))
    {whole : Value} {lost : List Loss} {new : δ}
    (chosen : candidate .none codec fields given = (whole, lost))
    (rebuilt : codec.decode whole = some new) {part : Value}
    (found : whole.at? path = some part) (unknown : follow path.names root = none) :
    (Value.object given).Supplies whole path part := by
  rcases candidate_cases chosen rebuilt with ⟨rfl, rfl⟩ | ⟨more, redone, rfl⟩
  · -- The merged candidate is the source wherever it is not the destination's.
    obtain ⟨write, member, covers⟩ := traces.exists_write found unknown
    exact .inl ((traces.below member covers).symm.trans found)
  · have sound := sound_merge .none codec formedThere formed
    have back := at?_bare .none codec formedThere formed
    by_cases covered : ∃ write ∈ (merge .none codec fields given).journal.writes,
        write.path.Covers path
    · obtain ⟨write, member, covers⟩ := covered
      exact traces.supplies_of_ends sound.wellFormed member
        ((fate_bare formedThere formed redone).ends write member) (back write member)
        covers found unknown
    · -- Beside all writes stands what stood there before, and that the shape knows.
      have beside : ∀ other ∈ (merge .none codec fields given).journal.writes.map (·.path),
          other.Apart path := by
        refine List.forall_mem_map.2 fun write member => ?_
        have uncovered : ¬ write.path.Covers path := fun covers => covered ⟨write, member, covers⟩
        exact (Path.apart_or_covers write.path path).resolve_right fun either =>
          either.elim uncovered (traces.not_covers unknown member uncovered)
      have settles := redone_bare formedThere formed redone
      rw [(settles.outside path beside).1, bare, (sameOutside_takeBackAll _ _ path beside).1]
        at found
      obtain ⟨write, member, covers⟩ := traces.exists_write found unknown
      exact absurd ⟨write, member, covers⟩ covered

/-- What is reported before the rebuild stands in the source where it is reported. -/
theorem candidate_reports {root : Shape} (formedThere : (Value.object fields).WellFormed)
    (formed : (Value.object given).WellFormed)
    (traces : ((merge .none codec fields given).map .object).Traces root Path.root (.object given))
    {whole : Value} {lost : List Loss} {new : δ}
    (chosen : candidate .none codec fields given = (whole, lost))
    (rebuilt : codec.decode whole = some new) {loss : Loss} (reported : loss ∈ lost) :
    loss.value.isBlank = false ∧ (Value.object given).at? loss.path = some loss.value := by
  have merging : ∀ loss ∈ (merge .none codec fields given).journal.losses,
      loss.value.isBlank = false ∧ (Value.object given).at? loss.path = some loss.value := by
    intro loss member
    obtain ⟨rest, route, stands, filled⟩ := traces.losses loss member
    obtain rfl : loss.path = rest := route
    exact ⟨filled, stands⟩
  rcases candidate_cases chosen rebuilt with ⟨rfl, rfl⟩ | ⟨more, redone, rfl⟩
  · exact merging loss reported
  · rcases List.mem_append.1 reported with before | later
    · exact merging loss before
    · obtain ⟨⟨write, member, rest, route⟩, found, filled⟩ :=
        (fate_bare formedThere formed redone).reported loss later
      have covers : write.path.Covers loss.path := by
        rw [Path.Covers, route, List.map_append]
        exact List.prefix_append _ _
      exact ⟨filled, (traces.below member covers).symm.trans found⟩

/-- A merge into a written value of a record type is traced. -/
theorem traces_merge {rule : RecordRule} {declared : List (FieldRule × Shape)}
    (follows : codec.Follows (.record rule declared))
    (steady : (Shape.record rule declared).everywhere isSteady = true)
    (formedThere : (Value.object fields).WellFormed)
    (fixed : (Shape.record rule declared).rebuild (.object fields) = some (.object fields))
    (formed : (Value.object given).WellFormed) :
    ((merge .none codec fields given).map .object).Traces (.record rule declared) Path.root
      (.object given) := by
  have sound : MapsOf (.record rule declared) (mapPaths codec.roundTrip fields) := by
    rw [funext follows]
    exact follow_of_mem_mapPaths (anchored_of_steady steady) formedThere fixed
  have stands : Stands (.record rule declared) (.record rule declared) Path.root (.object fields) :=
    ⟨everywhere_mono (fun _ => isSteady.declaresOnce) steady, rfl,
      moulds_of_rebuild (anchored_of_steady steady) formedThere fixed⟩
  exact traces_mergeObjects stands formed.distinct fun entry member inner v within =>
    traces_mergeInto sound ((Value.wellFormed_object.1 formed).2 entry member) within

/-- What the source supplies to a candidate it supplies to what the candidate is rebuilt as. -/
theorem supplies_of_unknown {shape : Shape} (anchored : shape.everywhere isAnchored = true)
    {source whole settled : Value} {loss : Loss} (rebuilt : shape.rebuild whole = some settled)
    (unknown : loss.Unknown shape whole settled loss.path)
    (supplies : source.Supplies whole loss.path loss.value) :
    source.Supplies settled loss.path loss.value := by
  refine supplies.imp id ?_
  rintro ⟨before, j, i, after, route, moved, held, items, kept, there, stands, fewer⟩
  refine ⟨before, j, i, after, route, moved, held, ?_⟩
  -- A sequence on the way to a loss is rebuilt as a sequence of the same length.
  obtain ⟨part, reached, isSequence⟩ := unknown.kept before _ after route
  obtain ⟨inner, leads, same⟩ :=
    rebuild_at? (anchoredAlong_of_everywhere anchored) rebuilt stands reached
  cases part with
  | array again =>
    have length := length_of_rebuild (holds_of_everywhere (leads.everywhere anchored)) same
    exact ⟨items, again, there, reached, length ▸ fewer⟩
  | _ => simp [Value.isArray, Segment.isIndex] at isSequence

/--
Every reported value is a value of the source that carries information.

It stands in the source where it is reported, except that below a sequence of which the new
destination holds fewer items it may stand at a later position of this sequence.
-/
theorem reports_stand_in_source {σ : Type} {source : Codec σ} {rule : RecordRule}
    {declared : List (FieldRule × Shape)} (follows : codec.Follows (.record rule declared))
    (steady : (Shape.record rule declared).everywhere isSteady = true) {src : σ} {dest new : δ}
    {there given : Value} (restores : codec.Restores dest there)
    (written : source.encode src = .ok given) (formed : given.WellFormed) {losses : List Loss}
    (copied : copy .none source codec src dest = ⟨.ok new, losses⟩) :
    ∃ settled, codec.encode new = .ok settled ∧ ∀ loss ∈ losses,
      loss.value.isBlank = false ∧ given.Supplies settled loss.path loss.value := by
  obtain ⟨given, fields, whole, lost, settled, maps, encoded, encodedThere, chosen, rebuilt, again,
    rfl⟩ := copy_eq_ok copied
  obtain rfl := Except.ok.inj (encoded.symm.trans written)
  obtain rfl := Except.ok.inj (encodedThere.symm.trans restores.written)
  have formedThere := restores.wellFormed
  have traces := traces_merge follows steady formedThere (restores.fixed follows) formed
  refine ⟨settled, again, fun loss reported => ?_⟩
  -- Some reports are made before the rebuild, and some compare it with the candidate.
  rcases List.mem_append.1 reported with before | after
  · obtain ⟨filled, stands⟩ := candidate_reports formedThere formed traces chosen rebuilt before
    exact ⟨filled, .inl stands⟩
  · have rebuiltWhole : (Shape.record rule declared).rebuild whole = some settled := by
      rw [← follows]
      exact roundTrip_eq_some.2 ⟨_, rebuilt, again⟩
    obtain ⟨_, _, formedWhole, _⟩ := candidate_settled formedThere formed chosen rebuilt
    obtain ⟨rest, route, unknown⟩ := unknown_of_forgotten steady formedWhole rebuiltWhole after
    obtain rfl : loss.path = rest := route
    exact ⟨unknown.filled, supplies_of_unknown (anchored_of_steady steady) rebuiltWhole unknown
      (candidate_supplies formedThere formed traces chosen rebuilt unknown.found unknown.unknown)⟩

/-- A sequence of rules of which the first one is no rule, and the second one has a protocol. -/
private def mixedRules : Value :=
  .object [("Rules", .array [.whole 5,
    .object [("Port", .whole 1), ("Protocol", .string "TCP")]])]

/-- The first rule is refused, and the protocol of the second one is reported in its place. -/
theorem copy_mixedRules : ∃ new,
    copy .none (Shape.any.codec "Value") (Catalog.dest.codec "Dest") mixedRules
      Catalog.dest.initial =
      ⟨.ok new, [⟨[.field "Rules", .index 0], .whole 5⟩,
        ⟨[.field "Rules", .index 0, .field "Protocol"], .string "TCP"⟩]⟩ := by
  have succeeds : (copy .none (Shape.any.codec "Value") (Catalog.dest.codec "Dest") mixedRules
      Catalog.dest.initial).result.toOption.isSome = true := by decide +kernel
  have reports : (copy .none (Shape.any.codec "Value") (Catalog.dest.codec "Dest") mixedRules
      Catalog.dest.initial).losses = [⟨[.field "Rules", .index 0], .whole 5⟩,
        ⟨[.field "Rules", .index 0, .field "Protocol"], .string "TCP"⟩] := by decide +kernel
  rw [← reports]
  generalize copy .none (Shape.any.codec "Value") (Catalog.dest.codec "Dest") mixedRules
    Catalog.dest.initial = outcome at succeeds ⊢
  obtain ⟨result, losses⟩ := outcome
  cases result with
  | ok new => exact ⟨new, rfl⟩
  | error fault => simp [Except.toOption] at succeeds

/-- What is reported of rules of which one is refused stands in the source, if not in its place. -/
theorem reports_stand_in_source_of_mixedRules : ∃ new losses settled,
    copy .none (Shape.any.codec "Value") (Catalog.dest.codec "Dest") mixedRules
      Catalog.dest.initial = ⟨.ok new, losses⟩ ∧
    (Catalog.dest.codec "Dest").encode new = .ok settled ∧
    losses.map (·.path) = [[.field "Rules", .index 0],
      [.field "Rules", .index 0, .field "Protocol"]] ∧
    ∀ loss ∈ losses, loss.value.isBlank = false ∧
      mixedRules.Supplies settled loss.path loss.value := by
  obtain ⟨new, copied⟩ := copy_mixedRules
  have restores : (Catalog.dest.codec "Dest").Restores Catalog.dest.initial Catalog.dest.initial :=
    ⟨rfl, by rfl, by decide⟩
  obtain ⟨settled, written, reports⟩ := reports_stand_in_source
    (Shape.follows_codec "Dest" Catalog.dest) (by decide) restores rfl (by decide) copied
  exact ⟨new, _, settled, copied, written, rfl, reports⟩

/-- Not every reported value stands in the source where it is reported. -/
theorem not_every_report_stands_in_place :
    ¬ ∀ (σ δ : Type) (source : Codec σ) (codec : Codec δ) (rule : RecordRule)
        (declared : List (FieldRule × Shape)), codec.Follows (.record rule declared) →
      (Shape.record rule declared).everywhere isSteady = true →
      ∀ (src : σ) (dest new : δ) (there given : Value) (losses : List Loss),
        codec.Restores dest there → source.encode src = .ok given → given.WellFormed →
        copy .none source codec src dest = ⟨.ok new, losses⟩ →
        ∀ loss ∈ losses, loss.value.isBlank = false ∧
          given.at? loss.path = some loss.value := by
  intro always
  obtain ⟨new, copied⟩ := copy_mixedRules
  have stands := always Value Value (Shape.any.codec "Value") (Catalog.dest.codec "Dest") _ _
    (Shape.follows_codec "Dest" Catalog.dest) (by decide) mixedRules Catalog.dest.initial new
    Catalog.dest.initial mixedRules _ ⟨rfl, by rfl, by decide⟩ rfl (by decide) copied
    ⟨[.field "Rules", .index 0, .field "Protocol"], .string "TCP"⟩ (by simp)
  -- The first rule is a number, and has no protocol.
  simp [mixedRules, Value.at?, Value.step?, Keyed.get?, Value.whole] at stands

end Transfer

end Settled

end Triversion
