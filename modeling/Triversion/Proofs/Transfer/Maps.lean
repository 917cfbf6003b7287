import Triversion.Proofs.Shape.Mould
import Triversion.Transfer.Maps
import Triversion.Transfer.Merge

/-!
Which maps are found in a written destination.

For a destination type that follows an anchored shape the emptying experiment is right: every route
it finds leads to a map of the shape, and it finds every filled map.
-/

namespace Triversion

section Worklist

variable {roundTrip : Value → Option Value} {whole : Value}

/-- Parts that wait behind others are visited after them, and to the same effect. -/
theorem collectMaps_append (first second : List (Path × Value)) :
    collectMaps roundTrip whole (first ++ second) =
      collectMaps roundTrip whole first ++ collectMaps roundTrip whole second := by
  -- The induction follows the worklist; what a visit adds stands in front of the second parts too.
  induction first using collectMaps.induct roundTrip whole with
  | case1 =>
    rw [collectMaps]
    rfl
  | case2 path v pending found ih =>
    rw [List.cons_append, collectMaps, collectMaps, ← List.append_assoc, ih, List.append_assoc]

/-- What is found from one part is found from all parts that wait with it. -/
theorem collectMaps_subset {part : Path × Value} {pending : List (Path × Value)}
    (listed : part ∈ pending) :
    collectMaps roundTrip whole [part] ⊆ collectMaps roundTrip whole pending := by
  obtain ⟨before, after, rfl⟩ := List.append_of_mem listed
  have split : before ++ part :: after = before ++ ([part] ++ after) := rfl
  rw [split, collectMaps_append, collectMaps_append]
  exact fun _ member => List.mem_append_right _ (List.mem_append_left _ member)

/-- From a part its own visit is made, and then those of the parts below it. -/
theorem collectMaps_singleton (path : Path) (v : Value) :
    collectMaps roundTrip whole [(path, v)] =
      (visit roundTrip whole path v).1 ++
        collectMaps roundTrip whole (visit roundTrip whole path v).2 := by
  rw [collectMaps, List.append_nil]

/-- Parts that stand in the whole at their routes. -/
def Placed (whole : Value) (parts : List (Path × Value)) : Prop :=
  ∀ part ∈ parts, whole.at? part.1 = some part.2

theorem placed_entriesAt {step : String → Segment} {path : Path} {fields : Fields}
    (named : ∀ name, (step name).name? = some name) (formed : (Value.object fields).WellFormed)
    (found : whole.at? path = some (.object fields)) :
    Placed whole (entriesAt step path fields) := by
  intro part listed
  obtain ⟨⟨name, v⟩, member, rfl⟩ := List.mem_map.1 listed
  rw [Value.at?_append, found, Option.bind_some, Value.at?, Value.step?_object, named,
    Option.bind_some, Keyed.get?_of_mem formed.distinct member]
  rfl

/-- The parts below a part of the whole stand in the whole. -/
theorem placed_visit (formed : whole.WellFormed) {path : Path} {v : Value}
    (found : whole.at? path = some v) : Placed whole (visit roundTrip whole path v).2 := by
  have within := formed.at? found
  unfold visit
  split
  · exact fun _ member => absurd member List.not_mem_nil
  · split
    · exact placed_entriesAt (fun _ => rfl) within found
    · exact placed_entriesAt (fun _ => rfl) within found
  · next items =>
    intro part listed
    obtain ⟨⟨item, i⟩, member, rfl⟩ := List.mem_map.1 listed
    rw [Path.index, Value.at?_append, found]
    simpa [Value.at?, Value.step?] using List.mem_zipIdx_iff_getElem?.1 member
  · exact fun _ member => absurd member List.not_mem_nil

/-- Every route that is found belongs to a filled object that comes back empty. -/
theorem mem_collectMaps (formed : whole.WellFormed) {pending : List (Path × Value)}
    (placed : Placed whole pending) :
    ∀ route ∈ collectMaps roundTrip whole pending, ∃ path fields, route = path.withoutPositions ∧
      whole.at? path = some (.object fields) ∧ fields ≠ [] ∧
        comesBackEmpty roundTrip whole path = true := by
  induction pending using collectMaps.induct roundTrip whole with
  | case1 =>
    intro route member
    simp [collectMaps] at member
  | case2 path v pending found ih =>
    obtain ⟨here, later⟩ := List.forall_mem_cons.1 placed
    intro route member
    rw [collectMaps, List.mem_append] at member
    -- What is found now comes from the visit of the first part.
    rcases member with now | after
    · unfold visit at now
      split at now
      · simp at now
      · next fields filled =>
        split at now
        · next empties =>
          refine ⟨path, fields, by simpa using now, here, fun none => filled ?_, empties⟩
          rw [none]
        · simp at now
      · simp at now
      · simp at now
    · exact ih (List.forall_mem_append.2 ⟨placed_visit formed here, later⟩) route after

end Worklist

namespace Shape

/-- A key leads into a map. -/
theorem Enters.core_of_key {k : String} {shape inner : Shape}
    (enters : Enters (.key k) shape inner) :
    shape.core.isMap = true := by
  generalize same : Segment.key k = segment at enters
  induction enters with
  | optional _ ih => exact ih same
  | key k decimalKeys shape => rfl
  | item i => contradiction
  | field member => contradiction

/-- A field leads into a record. -/
theorem Enters.core_of_field {name : String} {shape inner : Shape}
    (enters : Enters (.field name) shape inner) :
    ∃ rule fields, shape.core = .record rule fields := by
  generalize same : Segment.field name = segment at enters
  induction enters with
  | optional _ ih => exact ih same
  | field member => exact ⟨_, _, rfl⟩
  | item i => contradiction
  | key k decimalKeys shape => contradiction

/-- What an empty object is rebuilt as is never left out. -/
theorem isSolid_of_rebuild_empty {shape : Shape} (anchored : shape.holds isAnchored = true)
    {new : Value} (rebuilt : shape.rebuild (.object []) = some new) : new.isSolid = true := by
  induction shape using inductionOn with
  | optional shape ih =>
    simp only [rebuild, Value.isNull, Bool.false_eq_true, if_false] at rebuilt
    exact ih anchored rebuilt
  | map decimalKeys shape => simp [rebuild] at rebuilt; subst rebuilt; rfl
  | record rule fields =>
    obtain ⟨forgets, distinct, _⟩ := readsAll_iff.1 (isAnchored.readsAll anchored)
    obtain ⟨kept, rfl, _⟩ := (rebuild_object_iff forgets distinct).1 rebuilt
    rfl
  | any | tuple shapes ih => simp [holds, isAnchored] at anchored
  | _ => simp [rebuild, rebuildFloat, rebuildChoice, Value.isNull] at rebuilt

/-- Emptied, a filled object is rebuilt as an empty one exactly if it is a map. -/
theorem rebuild_empty_iff {shape : Shape} (anchored : shape.holds isAnchored = true)
    {fields : Fields} (fixed : shape.rebuild (.object fields) = some (.object fields))
    (filled : fields ≠ []) :
    shape.rebuild (.object []) = some (.object []) ↔ shape.core.isMap = true := by
  induction shape using inductionOn with
  | optional shape ih =>
    simp only [rebuild, Value.isNull, Bool.false_eq_true, if_false] at fixed ⊢
    exact ih anchored fixed
  | map decimalKeys shape ih => simp [rebuild, core, isMap]
  | record rule declared ih =>
    obtain ⟨forgets, distinct, _⟩ := readsAll_iff.1 (isAnchored.readsAll anchored)
    obtain ⟨given, same, rebuilds⟩ := rebuilds_of_fixed forgets distinct fixed
    obtain rfl := Value.object.inj same
    simp only [core, isMap, Bool.false_eq_true, iff_false]
    intro emptied
    obtain ⟨kept, same, empties⟩ := (rebuild_object_iff forgets distinct).1 emptied
    obtain rfl := Value.object.inj same
    -- A record is filled because it declares a field, and one of its fields is always written.
    obtain ⟨⟨name, v⟩, rest, rfl⟩ := List.exists_cons_of_ne_nil filled
    have held : Keyed.get? name ((name, v) :: rest) = some v := by simp [Keyed.get?]
    obtain ⟨first, listed, _⟩ := rebuilds.exists_field held
    obtain ⟨field, member, never⟩ := isAnchored.exists_never anchored (List.ne_nil_of_mem listed)
    obtain ⟨w, _, stands⟩ := empties.each field member
    simp [Keyed.get?, FieldRule.keeps, never] at stands
  | choice words =>
    simp only [rebuild, rebuildChoice] at fixed
    split at fixed <;> simp at fixed
  | _ => simp_all [rebuild, rebuildFloat, Value.isNull, holds, isAnchored]

variable {shape : Shape} {fields : Fields}

/-- A filled object comes back empty exactly if its shape is that of a map. -/
theorem comesBackEmpty_iff {path : Path} (along : AnchoredAlong path shape) {whole : Value}
    (fixed : shape.rebuild whole = some whole)
    (found : whole.at? path = some (.object fields)) (filled : fields ≠ []) :
    ∃ inner, Leads path shape inner ∧ inner.rebuild (.object fields) = some (.object fields) ∧
      (comesBackEmpty shape.rebuild whole path = true ↔ inner.core.isMap = true) := by
  obtain ⟨inner, leads, partFixed, changes⟩ := rebuild_modifyAt along fixed found
  refine ⟨inner, leads, partFixed, ?_⟩
  have anchoredInner := along.last leads
  rw [← rebuild_empty_iff anchoredInner partFixed filled, comesBackEmpty,
    changes _ fun _ => isSolid_of_rebuild_empty anchoredInner]
  cases emptied : inner.rebuild (.object []) with
  | none => simp
  | some settled =>
    -- What stands at the end of the route is what the emptied object is rebuilt as.
    have stands := Value.at?_modifyAt path (fun _ => settled) whole
    rw [found] at stands
    simp only [Option.map_some, stands]
    split
    · next same => simpa using same
    · next different => simpa using fun same => different (by rw [same])

/-- The names of every route that is found lead to a map. -/
theorem follow_of_mem_mapPaths (anchored : shape.everywhere isAnchored = true)
    (formed : (Value.object fields).WellFormed)
    (fixed : shape.rebuild (.object fields) = some (.object fields)) :
    ∀ route ∈ mapPaths shape.rebuild fields, ∃ inner,
      follow (Path.names route) shape = some inner ∧ inner.isMap = true := by
  intro route member
  have placed : Placed (.object fields) (entriesAt .field Path.root fields) :=
    placed_entriesAt (fun _ => rfl) formed rfl
  obtain ⟨path, entries, rfl, found, filled, empties⟩ := mem_collectMaps formed placed route member
  obtain ⟨inner, leads, _, isMap⟩ :=
    comesBackEmpty_iff (anchoredAlong_of_everywhere anchored) fixed found filled
  refine ⟨inner.core, ?_, isMap.1 empties⟩
  rw [Path.names_withoutPositions]
  exact leads.follow (everywhere_mono (fun _ => isAnchored.declaresOnce) anchored)

/-- Whether no map stands inside a map. -/
def hasFlatMaps : Shape → Bool
  | .map _ shape => shape.everywhere fun inner => !inner.isMap
  | _ => true

/-- A shape without maps has none behind its optionals and sequences. -/
theorem core_isMap_of_free (free : shape.everywhere (fun inner => !inner.isMap) = true) :
    shape.core.isMap = false := by
  simpa using here_of_everywhere (everywhere_core free)

/-- Names lead from a shape without maps to no map. -/
theorem not_isMap_of_follow {names : List String} {inner : Shape}
    (free : shape.everywhere (fun inner => !inner.isMap) = true)
    (follows : follow names shape = some inner) : inner.isMap = false := by
  induction names generalizing shape with
  | nil => exact Option.some.inj follows ▸ core_isMap_of_free free
  | cons name rest ih =>
    obtain ⟨next, first, later⟩ := Option.bind_eq_some_iff.1 follows
    exact ih (everywhere_under? (everywhere_core free) first) later

/-- A name leads from a map to a part without maps. -/
theorem Step.free_of_isMap {segment : Segment} {inner : Shape} {name : String}
    (step : Step segment shape inner) (named : segment.name? = some name)
    (flat : shape.everywhere hasFlatMaps = true) (isMap : shape.core.isMap = true) :
    inner.everywhere (fun inner => !inner.isMap) = true := by
  induction step with
  | optional step ih => exact ih named (everywhere_optional.1 flat).2 isMap
  | item i => simp [Segment.name?] at named
  | entry _ decimalKeys shape => exact (everywhere_map.1 flat).1
  | field member _ => simp [core, Shape.isMap] at isMap

end Shape

namespace Shape

/-- From a part on, every filled map is found that the route to the part and its own route reach. -/
theorem mem_of_collectMaps {shape : Shape} {whole : Value}
    (fixed : shape.rebuild whole = some whole) {routes : List Path} (before : Path)
    {v : Value} (found : whole.at? before = some v) {here : Shape}
    (reached : Leads before shape here)
    (collected : collectMaps shape.rebuild whole [(before, v)] ⊆ routes) {rest : Path}
    (along : AnchoredAlong (before ++ rest) shape) {entries : Fields}
    (ends : v.at? rest = some (.object entries)) (filled : entries ≠ [])
    {inner : Shape} (onward : Reaches rest here inner) (isMap : inner.core.isMap = true) :
    (before ++ rest).withoutPositions ∈ routes := by
  induction rest generalizing before v here with
  | nil =>
    rw [collectMaps_singleton] at collected
    obtain rfl := Option.some.inj ends
    obtain ⟨_, leads, _, empties⟩ := comesBackEmpty_iff along.start fixed found filled
    obtain rfl := leads.unique reached along.start
    obtain rfl := onward
    rw [List.append_nil]
    obtain ⟨entry, others, rfl⟩ := List.exists_cons_of_ne_nil filled
    refine collected (List.mem_append_left _ ?_)
    simp [visit, empties.2 isMap]
  | cons segment rest ih =>
    obtain ⟨next, enters, later⟩ := onward
    obtain ⟨part, first, endsLater⟩ := Option.bind_eq_some_iff.1 ends
    have foundNext : whole.at? (before ++ [segment]) = some part := by
      rw [Value.at?_append, found, Option.bind_some, Value.at?, first]
      rfl
    -- A part that is visited next is in the reach of what is found.
    have proceed : (before ++ [segment], part) ∈ (visit shape.rebuild whole before v).2 →
        (before ++ segment :: rest).withoutPositions ∈ routes := by
      intro listed
      rw [collectMaps_singleton] at collected
      have inside := List.Subset.trans (collectMaps_subset listed)
        (List.append_subset.1 collected).2
      have route : before ++ segment :: rest = before ++ [segment] ++ rest := by simp
      rw [route] at along ⊢
      exact ih (before ++ [segment]) foundNext (reached.append ⟨next, enters.step, rfl⟩) inside
        along endsLater later
    cases v with
    | array items =>
      cases segment with
      | index i =>
        exact proceed (List.mem_map.2 ⟨(part, i), List.mem_zipIdx_iff_getElem?.2 first, rfl⟩)
      | field name => simp [Value.step?] at first
      | key k => simp [Value.step?] at first
    | object fields =>
      refine proceed ?_
      rw [Value.step?_object] at first
      obtain ⟨name, named, held⟩ := Option.bind_eq_some_iff.1 first
      have listed := Keyed.mem_of_get? held
      have nonempty : fields ≠ [] := List.ne_nil_of_mem listed
      obtain ⟨_, leads, _, empties⟩ := comesBackEmpty_iff along.start fixed found nonempty
      obtain rfl := leads.unique reached along.start
      obtain ⟨entry, others, rfl⟩ := List.exists_cons_of_ne_nil nonempty
      -- The emptying experiment tells keys from fields as the shape does.
      cases segment with
      | key k =>
        obtain rfl := Option.some.inj named
        simp only [visit, empties.2 enters.core_of_key, if_true]
        exact List.mem_map.2 ⟨_, listed, rfl⟩
      | field name =>
        obtain rfl := Option.some.inj named
        obtain ⟨rule, declared, core⟩ := enters.core_of_field
        have notMap : comesBackEmpty shape.rebuild whole before = false := by
          refine Bool.eq_false_iff.2 fun emptied => ?_
          have isMap := empties.1 emptied
          simp [core, Shape.isMap] at isMap
        simp only [visit, notMap, Bool.false_eq_true, if_false]
        exact List.mem_map.2 ⟨_, listed, rfl⟩
      | index i => simp [Segment.name?] at named
    | _ => cases segment <;> simp [Value.step?] at first

/-- Every filled map below the root is found. -/
theorem mem_mapPaths {shape : Shape} {path : Path} (along : AnchoredAlong path shape)
    {fields : Fields} (fixed : shape.rebuild (.object fields) = some (.object fields))
    {entries : Fields}
    (ends : (Value.object fields).at? path = some (.object entries)) (filled : entries ≠ [])
    {inner : Shape} (below : Below path shape inner) (isMap : inner.core.isMap = true) :
    path.withoutPositions ∈ mapPaths shape.rebuild fields := by
  cases path with
  | nil => exact below.elim
  | cons segment rest =>
    cases segment with
    | field name =>
      -- The search starts from the fields of the root.
      obtain ⟨part, first, later⟩ := Option.bind_eq_some_iff.1 ends
      obtain ⟨next, step, onward⟩ := below
      have listed : ([.field name], part) ∈ entriesAt .field Path.root fields :=
        List.mem_map.2 ⟨_, Keyed.mem_of_get? first, rfl⟩
      exact mem_of_collectMaps fixed [.field name] (by rw [Value.at?, first]; rfl)
        ⟨next, step, rfl⟩ (collectMaps_subset listed) along later filled onward isMap
    | index i | key k => exact below.elim

end Shape

/-- Every filled map below the root of a whole value is known to be one. -/
def Charts (maps : List Path) (root : Shape) (whole : Value) : Prop :=
  ∀ path inner entries, Shape.Below path root inner → inner.core.isMap = true →
    whole.at? path = some (.object entries) → entries ≠ [] → isMapAt maps path = true

/-- A filled map that an anchored route leads to is known to be one. -/
theorem isMapAt_mapPaths {shape inner : Shape} {path : Path}
    (along : Shape.AnchoredAlong path shape) {fields : Fields}
    (fixed : shape.rebuild (.object fields) = some (.object fields))
    (below : Shape.Below path shape inner) (isMap : inner.core.isMap = true) {entries : Fields}
    (ends : (Value.object fields).at? path = some (.object entries)) (filled : entries ≠ []) :
    isMapAt (mapPaths shape.rebuild fields) path = true := by
  have listed := Shape.mem_mapPaths along fixed ends filled below isMap
  rw [isMapAt, List.contains_iff_mem.2 listed, Bool.and_true]
  cases path with
  | nil => exact below.elim
  | cons segment rest => rfl

/-- The maps that are found in a written destination chart it. -/
theorem charts_mapPaths {shape : Shape} (anchored : shape.everywhere Shape.isAnchored = true)
    {fields : Fields} (fixed : shape.rebuild (.object fields) = some (.object fields)) :
    Charts (mapPaths shape.rebuild fields) shape (.object fields) :=
  fun _ _ _ below isMap ends filled =>
    isMapAt_mapPaths (Shape.anchoredAlong_of_everywhere anchored) fixed below isMap ends filled

/-- A route of fields and positions, such as it is met outside of maps. -/
def Path.Unkeyed (path : Path) : Prop :=
  ∀ segment ∈ path, segment.bare = segment

/-- A step that is no key enters what is not a map. -/
theorem Shape.Step.enters {segment : Segment} {shape inner : Shape}
    (step : Step segment shape inner)
    (bare : segment.bare = segment)
    (notMap : ∀ name, segment.name? = some name → shape.core.isMap = false) :
    Enters segment shape inner := by
  induction step with
  | optional _ ih => exact .optional (ih bare notMap)
  | item i => exact .item i
  | entry named decimalKeys shape => exact absurd (notMap _ named) Bool.noConfusion
  | @field segment rule fields field member named =>
    cases segment with
    | field name =>
      obtain rfl : name = field.1.name := Option.some.inj named
      exact .field member
    | index i => simp [Segment.name?] at named
    | key k => simp [Segment.bare] at bare

/-- Where maps have no maps inside them, fields and positions that lead to a map reach it. -/
theorem Shape.reaches_of_unkeyed {shape : Shape} (flat : shape.everywhere hasFlatMaps = true)
    (once : shape.everywhere declaresOnce = true) {v part : Value} (moulds : shape.Moulds v)
    {path : Path} (found : v.at? path = some part) (unkeyed : path.Unkeyed) {inner : Shape}
    (follows : follow path.names shape = some inner) (isMap : inner.isMap = true) :
    ∃ last, Reaches path shape last ∧ last.core.isMap = true := by
  induction path generalizing shape v with
  | nil => exact ⟨shape, rfl, Option.some.inj follows ▸ isMap⟩
  | cons segment rest ih =>
    obtain ⟨bare, unkeyed⟩ := List.forall_mem_cons.1 unkeyed
    obtain ⟨next, first, later⟩ := Option.bind_eq_some_iff.1 found
    obtain ⟨middle, step, within⟩ := moulds.step? first
    have names : Path.names (segment :: rest) = segment.name?.toList ++ Path.names rest := by
      cases segment <;> rfl
    rw [names, step.follow once] at follows
    obtain ⟨last, reached, ends⟩ :=
      ih (step.everywhere flat) (step.everywhere once) within later unkeyed follows
    refine ⟨last, ⟨middle, ?_, reached⟩, ends⟩
    -- A step into a map would leave no map to be led to.
    refine step.enters bare fun name named => Bool.eq_false_iff.2 fun entered => ?_
    have free := step.free_of_isMap named flat entered
    rw [not_isMap_of_follow free follows] at isMap
    simp at isMap

/-- Routes that are known to be maps, and whose names do lead to maps of a shape. -/
def MapsOf (root : Shape) (maps : List Path) : Prop :=
  ∀ route ∈ maps, ∃ inner,
    Shape.follow (Path.names route) root = some inner ∧ inner.isMap = true

/-- What is known to be a map is a map. -/
theorem MapsOf.isMap {root : Shape} {maps : List Path} (sound : MapsOf root maps) {path : Path}
    {inner : Shape} (reached : Shape.follow (Path.names path) root = some inner)
    (known : isMapAt maps path = true) : inner.isMap = true := by
  obtain ⟨_, listed⟩ := Bool.and_eq_true_iff.1 known
  obtain ⟨other, follows, isMap⟩ := sound _ (List.contains_iff_mem.1 listed)
  rw [Path.names_withoutPositions, reached] at follows
  rwa [Option.some.inj follows]

/-- A record is not mistaken for a map. -/
theorem MapsOf.isMapAt_record {root : Shape} {maps : List Path} (sound : MapsOf root maps)
    {path : Path} {rule : RecordRule} {fields : List (FieldRule × Shape)}
    (reached : Shape.follow (Path.names path) root = some (.record rule fields)) :
    isMapAt maps path = false :=
  Bool.eq_false_iff.2 fun known => Bool.noConfusion (sound.isMap reached known)

end Triversion
