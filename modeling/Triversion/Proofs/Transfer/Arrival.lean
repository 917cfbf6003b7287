import Triversion.Proofs.Shape.Fields
import Triversion.Proofs.Transfer.MapKeys
import Triversion.Proofs.Transfer.Tried

/-!
How a merge arrives at the end of a route of fields.

It goes from struct to struct, until it meets what the old destination has at the end, or comes by a
place where the old destination holds nothing. There it takes the source as one value, which stands
in the end or is reported as a whole.
-/

namespace Triversion

open Shape MergeCall

/-- Nothing stands at a route, or only null. -/
def Value.NothingAt (v : Value) (path : Path) : Prop :=
  v.at? path = none ∨ v.at? path = some .null

/-- Where there is nothing there is nothing behind it. -/
theorem Value.NothingAt.append {v : Value} {path : Path} (nothing : v.NothingAt path)
    (rest : Path) : v.NothingAt (path ++ rest) := by
  unfold NothingAt
  rw [Value.at?_append]
  rcases nothing with gone | gone
  · exact .inl (by rw [gone, Option.bind_none])
  · rw [gone, Option.bind_some]
    -- Behind null there is nothing but null itself.
    cases rest with
    | nil => exact .inr rfl
    | cons segment later => cases segment <;> exact .inl rfl

namespace Exclusions

variable {exclusions : Exclusions} {path : Path} {names : List String}

/-- No field along a route is a bookkeeping list, and none is excluded. -/
def LeavesOpen (exclusions : Exclusions) : Path → List String → Prop
  | _, [] => True
  | path, name :: names =>
    isBookkeeping name = false ∧ exclusions.excludes name (path.field name) = false ∧
      LeavesOpen exclusions (path.field name) names

/-- If nothing is excluded, a route is open that has no bookkeeping list on it. -/
theorem leavesOpen_none (ordinary : ∀ name ∈ names, isBookkeeping name = false) :
    none.LeavesOpen path names := by
  induction names generalizing path with
  | nil => trivial
  | cons name rest ih =>
    obtain ⟨first, others⟩ := List.forall_mem_cons.1 ordinary
    exact ⟨first, rfl, ih others⟩

end Exclusions

/-- Of all routes that differ in positions only a struct has one that leads on. -/
theorem Value.eq_ofNames_of_at? {names : List String} {v part : Value} {path : Path}
    {fields : Fields} (found : v.at? (Path.ofNames names) = some (.object fields))
    (another : v.at? path = some part)
    (same : path.withoutPositions = (Path.ofNames names).withoutPositions) :
    path = Path.ofNames names := by
  induction names generalizing v path with
  | nil =>
    obtain rfl := Option.some.inj found
    cases path with
    | nil => rfl
    | cons segment rest =>
      -- Only positions could be left out, and none leads into an object.
      cases segment with
      | index i => simp [Value.at?, Value.step?] at another
      | field name | key k => simp [Path.withoutPositions, Segment.isIndex] at same
  | cons name names ih =>
    obtain ⟨next, first, later⟩ := Option.bind_eq_some_iff.1 found
    obtain ⟨held, rfl, _⟩ := Value.exists_object_of_step? first
    cases path with
    | nil => simp [Path.withoutPositions, Segment.isIndex] at same
    | cons segment rest =>
      obtain ⟨turn, leads, onward⟩ := Option.bind_eq_some_iff.1 another
      cases segment with
      | index i => simp [Value.step?] at leads
      | key k => simp [Path.withoutPositions, Segment.isIndex] at same
      | field other =>
        obtain ⟨rfl, sameRest⟩ : other = name ∧
            Path.withoutPositions rest = (Path.ofNames names).withoutPositions := by
          simpa [Path.withoutPositions, Segment.isIndex] using same
        obtain rfl := Option.some.inj (leads.symm.trans first)
        rw [ih later onward sameRest, Path.ofNames_cons]

/-- What an anchored route of fields leads to is taken for a map only if it is one. -/
theorem isMapAt_mapPaths_ofNames {root shape : Shape} {names : List String}
    (along : AnchoredAlong (Path.ofNames names) root) {fields : Fields}
    (formed : (Value.object fields).WellFormed)
    (fixed : root.rebuild (.object fields) = some (.object fields))
    (reached : Reaches (Path.ofNames names) root shape) {entries : Fields}
    (ends : (Value.object fields).at? (Path.ofNames names) = some (.object entries))
    (known : isMapAt (mapPaths root.rebuild fields) (Path.ofNames names) = true) :
    shape.core.isMap = true := by
  have member := List.contains_iff_mem.1 (Bool.and_eq_true_iff.1 known).2
  have placed : Placed (.object fields) (entriesAt .field Path.root fields) :=
    placed_entriesAt (fun _ => rfl) formed rfl
  obtain ⟨path, others, same, found, filled, empties⟩ := mem_collectMaps formed placed _ member
  -- The emptying experiment that tells it for a map has been made at this very route.
  obtain rfl := Value.eq_ofNames_of_at? ends found same.symm
  obtain ⟨inner, leads, _, isMap⟩ := comesBackEmpty_iff along fixed found filled
  obtain rfl := leads.unique reached.leads along
  exact isMap.1 empties

/-- A call for a value of the source and what the old destination has at the same route. -/
structure MergeCall.Pairs (root : Shape) (old : Value) (rules : MergeRules) (whole : Merged Value)
    (names : List String) (shape : Shape) (there given : Value) : Prop where
  sits : Sits rules whole ⟨there, Path.ofNames names, given⟩
  reached : Reaches (Path.ofNames names) root shape
  origin : old.at? (Path.ofNames names) = some there

/-- A place where the old destination holds nothing, with what takes a write there back. -/
inductive Vacant (root : Shape) (old : Value) : List String → Reversal → Shape → Prop where
  | null {names : List String} {shape : Shape} (reached : Reaches (Path.ofNames names) root shape)
    (origin : old.at? (Path.ofNames names) = some .null) :
    Vacant root old names (.restore .null) shape
  | missing {before : List String} {name : String} {outer inner : Shape} {held : Fields}
    (reached : Reaches (Path.ofNames before) root outer) (enters : Enters (.field name) outer inner)
    (origin : old.at? (Path.ofNames before) = some (.object held))
    (absent : Keyed.get? name held = none) : Vacant root old (before ++ [name]) .remove inner

/-- The ways in which a merge arrives with a value of the source at the end of a route of fields. -/
inductive Arrives (root : Shape) (old : Value) (rules : MergeRules) (whole : Merged Value)
    (names : List String) (shape : Shape) (v : Value) : Prop where
  /-- It meets what the old destination has there. -/
  | meets {there : Value} (filled : there.isNull = false)
    (pairs : Pairs root old rules whole names shape there v)
  /-- It is part of what is taken as one value, at a place on the way. -/
  | taken {first rest : List String} {reversal : Reversal} {part : Value} {middle : Shape}
    (route : names = first ++ rest) (vacant : Vacant root old first reversal middle)
    (onward : Reaches (Path.ofNames rest) middle shape)
    (written : ⟨Path.ofNames first, reversal⟩ ∈ whole.journal.writes)
    (found : whole.result.at? (Path.ofNames first) =
      some (rules.exclusions.strip (Path.ofNames first) part))
    (within : part.at? (Path.ofNames rest) = some v)

/-- A copy into a written destination, which is rebuilt from a candidate that tried all writes. -/
structure CopiedInto (root : Shape) (old : Value) (rules : MergeRules) (whole : Merged Value)
    (candidate settled : Value) (losses : List Loss) : Prop where
  formed : old.WellFormed
  fixed : root.rebuild old = some old
  maps : ∃ fields, old = .object fields ∧ rules.maps = mapPaths root.rebuild fields
  drawn : Drawn whole candidate
  rebuilt : root.rebuild candidate = some settled
  tried : ∀ write ∈ whole.journal.writes,
    write.Tried (fun v => (root.rebuild v).isSome) whole.result candidate losses

section Arrival

variable {root shape inner : Shape} {old candidate settled v there : Value} {rules : MergeRules}
  {whole : Merged Value} {losses : List Loss} {name : String} {names : List String}

/-- What a written destination holds at the end of a route is rebuilt as it is. -/
theorem CopiedInto.fixed_at? (into : CopiedInto root old rules whole candidate settled losses)
    (along : AnchoredAlong (Path.ofNames names) root)
    (reached : Reaches (Path.ofNames names) root shape) {part : Value}
    (found : old.at? (Path.ofNames names) = some part) : shape.rebuild part = some part :=
  reached.leads.rebuild along into.fixed found found

/-- A call for what both sides have arrives, whether or not the destination holds null. -/
theorem Arrives.of_pairs (pairs : Pairs root old rules whole names shape there v)
    (present : v.isNull = false) : Arrives root old rules whole names shape v := by
  cases null : there.isNull with
  | false => exact .meets null pairs
  | true =>
    obtain rfl := Value.isNull_iff.1 null
    -- Null takes the value of the source as it is.
    obtain ⟨found, written⟩ := pairs.sits.written (.whole present)
    exact .taken (List.append_nil names).symm (.null pairs.reached pairs.origin) rfl written found
      rfl

/-- A field leads into a struct of the old destination that has fields and is no map. -/
theorem MergeCall.Pairs.exists_struct {outer : Shape} {given : Value}
    (pairs : Pairs root old rules whole names outer there given)
    (into : CopiedInto root old rules whole candidate settled losses)
    (along : AnchoredAlong (Path.ofNames names) root) (enters : Enters (.field name) outer inner)
    (filled : there.isNull = false) :
    ∃ fields, there = .object fields ∧ fields ≠ [] ∧
      isMapAt rules.maps (Path.ofNames names) = false := by
  obtain ⟨sits, reached, origin⟩ := pairs
  have fixed := into.fixed_at? along reached origin
  obtain ⟨fields, rfl, nonempty⟩ :=
    enters.exists_object (along.last reached.leads) fixed filled
  obtain ⟨held, rfl, maps⟩ := into.maps
  refine ⟨fields, rfl, nonempty, Bool.eq_false_iff.2 fun known => ?_⟩
  rw [maps] at known
  have isMap := isMapAt_mapPaths_ofNames along into.formed into.fixed reached origin known
  obtain ⟨rule, declared, core⟩ := enters.core_of_field
  simp [core, Shape.isMap] at isMap

/-- From a struct that a merge arrives at it arrives at each field that it does not skip. -/
theorem Arrives.field {outer : Shape} {given : Fields}
    (arrives : Arrives root old rules whole names outer (.object given))
    (into : CopiedInto root old rules whole candidate settled losses)
    (along : AnchoredAlong (Path.ofNames names) root) (enters : Enters (.field name) outer inner)
    (held : Keyed.get? name given = some v) (present : v.isNull = false)
    (passes : rules.skips (Path.ofNames names) name = false) :
    Arrives root old rules whole (names ++ [name]) inner v := by
  have step : Reaches (Path.ofNames [name]) outer inner := ⟨inner, enters, rfl⟩
  have longer : Path.ofNames (names ++ [name]) = (Path.ofNames names).field name := by
    simp [Path.field]
  cases arrives with
  | @taken first rest reversal part middle route vacant onward written found within =>
    refine .taken (by rw [route, List.append_assoc]) vacant ?_ written found ?_
    · rw [Path.ofNames_append]
      exact onward.append step
    · rw [Path.ofNames_append, Value.at?_append, within]
      simp [Value.at?, Value.step?, held]
  | @meets there filled pairs =>
    obtain ⟨fields, rfl, filledFields, notMap⟩ := pairs.exists_struct into along enters filled
    obtain ⟨sits, reached, origin⟩ := pairs
    -- The field is merged into the one of the old destination, or added if there is none.
    have taken : (name, v) ∈ takenFields rules (Path.ofNames names) given :=
      mem_takenFields.2 ⟨Keyed.mem_of_get? held, passes⟩
    cases found : Keyed.get? name fields with
    | some before =>
      have makes := sits.makes (.field notMap taken found)
      rw [← longer] at makes
      refine .of_pairs ⟨makes, ?_, ?_⟩ present
      · rw [Path.ofNames_append]
        exact reached.append step
      · rw [longer]
        exact (Value.at?_concat origin (.field name)).trans found
    | none =>
      obtain ⟨wrote, added⟩ := added_mergeObjects sits.formed.given.distinct taken found
      have merged :
          MergeCall.merged rules ⟨.object fields, Path.ofNames names, .object given⟩ = _ :=
        merged_struct filledFields notMap
      refine .taken (List.append_nil _).symm (.missing reached enters origin found) rfl
        (sits.own ?_) ?_ rfl
      · rw [merged, longer]
        exact wrote
      · rw [longer, Path.field, Value.at?_concat sits.found, merged]
        exact added

/-- From where a merge arrives it goes on along every open route of fields. -/
theorem Arrives.along {first : List String} {outer : Shape} {given : Value}
    (arrives : Arrives root old rules whole first outer given)
    (into : CopiedInto root old rules whole candidate settled losses)
    (along : AnchoredAlong (Path.ofNames (first ++ names)) root)
    (reached : Reaches (Path.ofNames names) outer inner)
    (found : given.at? (Path.ofNames names) = some v) (present : v.isNull = false)
    (leavesOpen : rules.exclusions.LeavesOpen (Path.ofNames first) names) :
    Arrives root old rules whole (first ++ names) inner v := by
  induction names generalizing first outer given with
  | nil =>
    obtain rfl : outer = inner := reached
    obtain rfl := Option.some.inj found
    simpa using arrives
  | cons name rest ih =>
    obtain ⟨middle, enters, onward⟩ := reached
    obtain ⟨ordinary, included, leavesOpen⟩ := leavesOpen
    obtain ⟨next, step, later⟩ := Option.bind_eq_some_iff.1 found
    obtain ⟨fields, rfl, held⟩ := Value.exists_object_of_step? step
    -- Something is behind the next part, or it is the last one.
    have presentNext : next.isNull = false := by
      cases rest with
      | nil => exact Option.some.inj later ▸ present
      | cons other others =>
        obtain ⟨_, inside, _⟩ := Option.bind_eq_some_iff.1 later
        obtain ⟨_, rfl, _⟩ := Value.exists_object_of_step? inside
        rfl
    have passes : rules.skips (Path.ofNames first) name = false :=
      Bool.or_eq_false_iff.2 ⟨ordinary, included⟩
    have route : first ++ name :: rest = first ++ [name] ++ rest := by simp
    have before : AnchoredAlong (Path.ofNames first) root := by
      rw [Path.ofNames_append] at along
      exact along.start
    rw [route] at along ⊢
    have longer : (Path.ofNames first).field name = Path.ofNames (first ++ [name]) := by
      simp [Path.field]
    rw [longer] at leavesOpen
    exact ih (arrives.field into before enters held presentNext passes) along onward later
      leavesOpen

/-- What stays taken back at a vacant place leaves nothing there in what is rebuilt. -/
theorem Vacant.settled_of_back {reversal : Reversal}
    (vacant : Vacant root old names reversal shape)
    (into : CopiedInto root old rules whole candidate settled losses)
    (along : AnchoredAlong (Path.ofNames names) root)
    (written : ⟨Path.ofNames names, reversal⟩ ∈ whole.journal.writes)
    (back : candidate.at? (Path.ofNames names) = reversal.leaves) :
    settled.NothingAt (Path.ofNames names) := by
  cases vacant with
  | null reached origin =>
    cases stands : settled.at? (Path.ofNames names) with
    | none => exact .inl stands
    | some part =>
      have rebuilt := reached.leads.rebuild along into.rebuilt back stands
      have same := rebuild_null (along.last reached.leads) rebuilt
      exact .inr (stands.trans (congrArg some same))
  | @missing before name outer inner held reached enters origin absent =>
    rw [Path.ofNames_append] at along written back ⊢
    have around := along.start
    refine .inl ?_
    -- An object stands around the place in the candidate, and lacks the field.
    obtain ⟨part, outside, admits⟩ := (into.drawn.places _ written).at?
    obtain ⟨others, rfl⟩ : ∃ others, part = .object others := by
      cases part with
      | object others => exact ⟨others, rfl⟩
      | _ => exact admits.elim
    have gone : Keyed.get? name others = none :=
      (Value.at?_concat outside (.field name)).symm.trans back
    cases stands : settled.at? (Path.ofNames before) with
    | none => rw [Value.at?_append, stands, Option.bind_none]
    | some kept =>
      have rebuilt := reached.leads.rebuild around into.rebuilt outside stands
      exact (Value.at?_concat stands (.field name)).trans
        (step?_of_missing (around.last reached.leads) (into.fixed_at? around reached origin) absent
          rebuilt gone)

/--
A value that a merge takes at a vacant place stands there in the candidate.

Otherwise nothing stands there in the end, and what was taken is reported as a whole.
-/
theorem Vacant.stands_or_gone {reversal : Reversal}
    (vacant : Vacant root old names reversal shape)
    (into : CopiedInto root old rules whole candidate settled losses)
    (along : AnchoredAlong (Path.ofNames names) root)
    (written : ⟨Path.ofNames names, reversal⟩ ∈ whole.journal.writes)
    (found : whole.result.at? (Path.ofNames names) = some v) :
    candidate.at? (Path.ofNames names) = some v ∨
      settled.NothingAt (Path.ofNames names) ∧ lossOf (Path.ofNames names) v ⊆ losses := by
  have one : reversal = .remove ∨ ∃ w, reversal = .restore w := by
    cases vacant with
    | null => exact .inr ⟨_, rfl⟩
    | missing => exact .inl rfl
  rcases (into.tried _ written).stands_or_back found one with stands | ⟨back, reported⟩
  · exact .inl stands
  · exact .inr ⟨vacant.settled_of_back into along written back, reported⟩

/-- What a merge writes at the end of a route of fields stands if the shape there accepts it. -/
theorem CopiedInto.stands_of_fits (into : CopiedInto root old rules whole candidate settled losses)
    (along : AnchoredAlong (Path.ofNames names) root)
    (reached : Reaches (Path.ofNames names) root shape) {reversal : Reversal}
    (written : ⟨Path.ofNames names, reversal⟩ ∈ whole.journal.writes)
    (found : whole.result.at? (Path.ofNames names) = some v)
    (fits : (shape.rebuild v).isSome = true) :
    candidate.at? (Path.ofNames names) = some v := by
  -- On top of any acceptable candidate the write changes this one place.
  refine ((into.tried _ written).stands_of_accepted fun before acceptable ready => ?_).trans found
  have once : redoAll whole.result [⟨Path.ofNames names, reversal⟩] before =
      Value.setAt (Path.ofNames names) v before := redoOne_of_found found
  rw [once]
  exact reached.rebuild_setAt_isSome along acceptable ready.place fits

end Arrival

namespace Transfer

variable {σ δ : Type} {source : Codec σ} {codec : Codec δ} {root : Shape}
  {exclusions : Exclusions}

/-- A copy that succeeds is a merge that arrives at the end of every open route of fields. -/
theorem exists_copiedInto (follows : codec.Follows root) {src : σ} {dest new : δ}
    {there given : Value} (restores : codec.Restores dest there)
    (written : source.encode src = .ok given) (formed : given.WellFormed) {losses : List Loss}
    (copied : copy exclusions source codec src dest = ⟨.ok new, losses⟩) :
    ∃ rules whole candidate settled, rules.exclusions = exclusions ∧
      codec.encode new = .ok settled ∧
      CopiedInto root there rules whole candidate settled losses ∧
      ∀ names inner v, names ≠ [] → AnchoredAlong (Path.ofNames names) root →
        Reaches (Path.ofNames names) root inner →
        given.at? (Path.ofNames names) = some v → v.isNull = false →
        exclusions.LeavesOpen Path.root names → Arrives root there rules whole names inner v := by
  obtain ⟨taken, fields, candidate, lost, settled, maps, encoded, encodedThere, chosen, rebuilt,
    again, rfl⟩ := copy_eq_ok copied
  obtain rfl := Except.ok.inj (encoded.symm.trans written)
  obtain rfl := Except.ok.inj (encodedThere.symm.trans restores.written)
  have formedThere := restores.wellFormed
  have accepts_eq : accepts codec = fun v => (root.rebuild v).isSome :=
    funext fun v => congrArg Option.isSome (follows v)
  have into : CopiedInto root (.object fields) ⟨exclusions, mapPaths codec.roundTrip fields⟩
      ((merge exclusions codec fields taken).map .object) candidate settled
      (lost ++ forgotten maps settled Path.root candidate) := by
    refine ⟨formedThere, restores.fixed follows, ⟨fields, rfl, ?_⟩,
      drawn_candidate formedThere formed chosen rebuilt, ?_, fun write member => ?_⟩
    · exact congrArg (mapPaths · fields) (funext follows)
    · rw [← follows]
      exact roundTrip_eq_some.2 ⟨_, rebuilt, again⟩
    · rw [← accepts_eq]
      exact (tried_candidate formedThere formed chosen rebuilt write member).mono rfl
        (List.subset_append_left _ _)
  refine ⟨_, _, candidate, settled, rfl, again, into, ?_⟩
  intro names inner v proper along reached found present leavesOpen
  -- A field leads into the root, so the old destination has been written with fields.
  obtain ⟨name, rest, rfl⟩ := List.exists_cons_of_ne_nil proper
  have entered := reached
  obtain ⟨middle, enters, _⟩ := entered
  obtain ⟨_, same, filled⟩ := enters.exists_object along.here into.fixed rfl
  obtain rfl := Value.object.inj same
  have atRoot := sits_merge exclusions codec formedThere formed filled
  have arrives : Arrives root (.object fields) _ _ [] root (.object taken) :=
    .meets rfl ⟨atRoot, rfl, rfl⟩
  exact arrives.along into along reached found present leavesOpen

end Transfer

end Triversion
