import Mathlib.Data.List.Induction
import Triversion.Catalog
import Triversion.Proofs.Transfer.Forgotten
import Triversion.Proofs.Transfer.Origin

/-!
The search for maps, in whatever order it visits the parts of a written destination.

Every visit names the parts below it by what the emptied object comes back as, so each part has one
route to be visited at. A search visits each of them once and then ends, and what it has found does
not depend on its order.
-/

namespace Triversion

section Parts

variable (roundTrip : Value → Option Value) (whole : Value)

/-- The whole with the object at a route emptied is accepted, and comes back with it empty. -/
def ReturnsEmpty (path : Path) : Prop :=
  ∃ settled, roundTrip (whole.modifyAt path fun _ => .object []) = some settled ∧
    settled.at? path = some (.object [])

/--
The parts of a whole with their routes.

The entries of an object are keys if the object returns empty, and fields otherwise; those of the
root are fields in any case.
-/
inductive Position : Path → Value → Prop where
  | root : Position [] whole
  | field {path : Path} {fields : Fields} {name : String} {v : Value}
      (inside : Position path (.object fields)) (found : Keyed.get? name fields = some v)
      (struct : path = [] ∨ ¬ ReturnsEmpty roundTrip whole path) : Position (path.field name) v
  | key {path : Path} {fields : Fields} {k : String} {v : Value}
      (inside : Position path (.object fields)) (found : Keyed.get? k fields = some v)
      (below : path ≠ []) (map : ReturnsEmpty roundTrip whole path) : Position (path.key k) v
  | item {path : Path} {items : List Value} {i : Nat} {v : Value}
      (inside : Position path (.array items)) (found : items[i]? = some v) :
      Position (path.index i) v

end Parts

/-- A search for maps: the routes that wait to be visited, those that were, and what was found. -/
structure MapSearch where
  pending : List Path
  visited : List Path
  found : List Path

namespace MapSearch

/-- Before the first visit the fields of the root wait. -/
def start (fields : Fields) : MapSearch :=
  ⟨fields.map fun field => Path.root.field field.1, [], []⟩

section Run

variable (roundTrip : Value → Option Value) (whole : Value)

/-- The map that a visit of a route finds, if any, and the routes that wait from then on. -/
def lookInto (path : Path) : List Path × List Path :=
  match whole.at? path with
  -- A route that leads nowhere is passed over.
  | none => ([], [])
  | some v => ((visit roundTrip whole path v).1, (visit roundTrip whole path v).2.map (·.1))

/-- Any of the routes that wait is visited, and the others wait on in any order. -/
inductive Step : MapSearch → MapSearch → Prop where
  | take {search : MapSearch} {path : Path} {others waiting : List Path}
      (taken : search.pending.Perm (path :: others))
      (waits : waiting.Perm ((lookInto roundTrip whole path).2 ++ others)) :
      Step search ⟨waiting, search.visited ++ [path],
        search.found ++ (lookInto roundTrip whole path).1⟩

/-- A number of visits, each chosen freely. -/
inductive Run (first : MapSearch) : Nat → MapSearch → Prop where
  | none : Run first 0 first
  | more {steps : Nat} {search next : MapSearch} (before : Run first steps search)
      (step : Step roundTrip whole search next) : Run first (steps + 1) next

end Run

end MapSearch

section Visit

variable {roundTrip : Value → Option Value} {whole : Value}

/-- The emptying experiment succeeds if the emptied object returns empty. -/
theorem comesBackEmpty_eq_true {path : Path} :
    comesBackEmpty roundTrip whole path = true ↔ ReturnsEmpty roundTrip whole path := by
  unfold comesBackEmpty ReturnsEmpty
  cases roundTrip (whole.modifyAt path fun _ => .object []) with
  | none => simp
  | some settled =>
    simp only [Option.some.injEq, exists_eq_left']
    split
    · next same => simp [same]
    · next different => simpa using fun same => different same

/-- Below an object wait its entries, which are keys if it comes back empty. -/
theorem visit_object (path : Path) (fields : Fields) :
    (visit roundTrip whole path (.object fields)).2 =
      entriesAt (entryStep (comesBackEmpty roundTrip whole path)) path fields := by
  cases fields with
  | nil => rfl
  | cons entry rest =>
    simp only [visit]
    split
    · next empties => rw [empties]; rfl
    · next stays => rw [Bool.eq_false_iff.2 stays]; rfl

/-- What a visit finds is the route of a filled object that returns empty. -/
theorem mem_visit {path route : Path} {v : Value} :
    route ∈ (visit roundTrip whole path v).1 ↔ ∃ entries, v = .object entries ∧ entries ≠ [] ∧
      ReturnsEmpty roundTrip whole path ∧ route = path.withoutPositions := by
  rw [← comesBackEmpty_eq_true]
  cases v with
  | object fields =>
    cases fields with
    | nil => simp [visit]
    | cons entry rest =>
      simp only [visit]
      split <;> next empties => simp [empties]
  | _ => simp [visit]

/-- A visit leads one step further. -/
theorem exists_of_mem_visit {path : Path} {v : Value} {part : Path × Value}
    (listed : part ∈ (visit roundTrip whole path v).2) : ∃ segment, part.1 = path ++ [segment] := by
  cases v with
  | array items =>
    obtain ⟨item, _, rfl⟩ := List.mem_map.1 listed
    exact ⟨_, rfl⟩
  | object fields =>
    rw [visit_object] at listed
    obtain ⟨entry, _, rfl⟩ := List.mem_map.1 listed
    exact ⟨_, rfl⟩
  | _ => simp [visit] at listed

/-- The steps to the parts below a part are told apart by their names and positions. -/
theorem visit_distinct (path : Path) {v : Value} (formed : v.WellFormed) :
    (visit roundTrip whole path v).2.Pairwise fun first second => ∃ a b,
      first.1 = path ++ [a] ∧ second.1 = path ++ [b] ∧ a.bare ≠ b.bare := by
  -- The items of a sequence differ in position, and the entries of an object in name.
  cases v with
  | array items =>
    refine List.pairwise_map.2 ((pairwise_zipIdx items).imp fun different => ?_)
    exact ⟨_, _, rfl, rfl, fun same => different (Segment.index.inj same)⟩
  | object fields =>
    rw [visit_object]
    refine List.pairwise_map.2 ((List.pairwise_map.1 formed.distinct).imp fun different => ?_)
    refine ⟨_, _, rfl, rfl, fun same => different ?_⟩
    -- All entries of one object are named in the same way.
    have names := Value.name?_of_bare_eq same
    simpa only [name?_entryStep, Option.some.injEq] using names
  | _ => simp [visit]

variable (roundTrip whole) in
/-- A visit leaves to be visited all values of a part but the part itself. -/
theorem size_eq_visit (path : Path) (v : Value) :
    v.size = pendingSize (visit roundTrip whole path v).2 + 1 := by
  cases v with
  | array items => rw [visit, pendingSize_itemsAt, Value.size, Nat.add_comm]
  | object fields => rw [visit_object, pendingSize_entriesAt, Value.size, Nat.add_comm]
  | _ => rfl

/-- No part is larger than all parts together. -/
theorem size_le_pendingSize {part : Path × Value} {parts : List (Path × Value)}
    (listed : part ∈ parts) : part.2.size ≤ pendingSize parts := by
  induction parts with
  | nil => simp at listed
  | cons first rest ih =>
    rw [pendingSize]
    rcases List.mem_cons.1 listed with rfl | later
    · omega
    · have := ih later
      omega

/-- A part below another one is smaller. -/
theorem size_lt_of_mem_visit {path : Path} {v : Value} {part : Path × Value}
    (listed : part ∈ (visit roundTrip whole path v).2) : part.2.size < v.size := by
  have inside := size_le_pendingSize listed
  have whole := size_eq_visit roundTrip whole path v
  omega

variable (roundTrip whole) in
/-- What holds of a part if it holds of all parts that its visit leads to holds of every part. -/
theorem visit_induction {motive : Path → Value → Prop}
    (each : ∀ path v, (∀ part ∈ (visit roundTrip whole path v).2, motive part.1 part.2) →
      motive path v) (path : Path) (v : Value) : motive path v := by
  induction size : v.size using Nat.strongRecOn generalizing path v with
  | ind n ih =>
    refine each path v fun part listed => ih part.2.size ?_ part.1 part.2 rfl
    exact size ▸ size_lt_of_mem_visit listed

end Visit

section PartsFrom

variable (roundTrip : Value → Option Value) (whole : Value)

/-- A part and all parts below it, with the routes at which a search visits them. -/
def partsFrom (path : Path) (v : Value) : List (Path × Value) :=
  (path, v) :: (visit roundTrip whole path v).2.attach.flatMap fun part =>
    partsFrom part.1.1 part.1.2
termination_by v.size
decreasing_by exact size_lt_of_mem_visit part.2

/-- All parts of several parts. -/
def partsOfAll (parts : List (Path × Value)) : List (Path × Value) :=
  parts.flatMap fun part => partsFrom roundTrip whole part.1 part.2

end PartsFrom

section Parts

variable {roundTrip : Value → Option Value} {whole : Value} {path : Path} {v : Value}

theorem partsFrom_eq (path : Path) (v : Value) :
    partsFrom roundTrip whole path v =
      (path, v) :: partsOfAll roundTrip whole (visit roundTrip whole path v).2 := by
  rw [partsFrom, partsOfAll]
  conv =>
    rhs
    rw [← List.attach_map_subtype_val (visit roundTrip whole path v).2, List.flatMap_map]

/-- The parts of several parts are those of the first one, and those of the others. -/
@[simp] theorem partsOfAll_cons (part : Path × Value) (parts : List (Path × Value)) :
    partsOfAll roundTrip whole (part :: parts) =
      partsFrom roundTrip whole part.1 part.2 ++ partsOfAll roundTrip whole parts :=
  rfl

theorem mem_partsOfAll {part : Path × Value} {parts : List (Path × Value)} :
    part ∈ partsOfAll roundTrip whole parts ↔
      ∃ first ∈ parts, part ∈ partsFrom roundTrip whole first.1 first.2 :=
  List.mem_flatMap

/-- There are as many parts of several parts as there are values in them, if so for each one. -/
theorem length_partsOfAll {parts : List (Path × Value)}
    (each : ∀ part ∈ parts, (partsFrom roundTrip whole part.1 part.2).length = part.2.size) :
    (partsOfAll roundTrip whole parts).length = pendingSize parts := by
  induction parts with
  | nil => rfl
  | cons part rest ih =>
    obtain ⟨first, later⟩ := List.forall_mem_cons.1 each
    rw [partsOfAll_cons, List.length_append, first, ih later, pendingSize]

/-- There are as many parts of a part as there are values in it. -/
theorem length_partsFrom (path : Path) (v : Value) :
    (partsFrom roundTrip whole path v).length = v.size := by
  induction path, v using visit_induction roundTrip whole with
  | each path v ih =>
    rw [partsFrom_eq, List.length_cons, length_partsOfAll ih, ← size_eq_visit roundTrip whole]

/-- Several parts are among all parts of them. -/
theorem mem_partsOfAll_self {parts : List (Path × Value)} {part : Path × Value}
    (listed : part ∈ parts) : part ∈ partsOfAll roundTrip whole parts := by
  refine mem_partsOfAll.2 ⟨part, listed, ?_⟩
  rw [partsFrom_eq]
  exact List.mem_cons_self

/-- What lies below a part is found from wherever the part is. -/
theorem partsFrom_closed {path : Path} {v : Value} {part below : Path × Value}
    (listed : part ∈ partsFrom roundTrip whole path v)
    (next : below ∈ (visit roundTrip whole part.1 part.2).2) :
    below ∈ partsFrom roundTrip whole path v := by
  -- Either the part is where the parts begin, or it lies below one that a visit leads to.
  induction path, v using visit_induction roundTrip whole with
  | each path v ih =>
    rw [partsFrom_eq] at listed ⊢
    refine List.mem_cons_of_mem _ ?_
    rcases List.mem_cons.1 listed with rfl | deeper
    · exact mem_partsOfAll_self next
    · obtain ⟨first, inside, within⟩ := mem_partsOfAll.1 deeper
      exact mem_partsOfAll.2 ⟨first, inside, ih first inside within⟩

/-- What lies below one of the parts of several parts is one of them. -/
theorem partsOfAll_closed {parts : List (Path × Value)} {part below : Path × Value}
    (listed : part ∈ partsOfAll roundTrip whole parts)
    (next : below ∈ (visit roundTrip whole part.1 part.2).2) :
    below ∈ partsOfAll roundTrip whole parts := by
  obtain ⟨first, inside, within⟩ := mem_partsOfAll.1 listed
  exact mem_partsOfAll.2 ⟨first, inside, partsFrom_closed within next⟩

/-- The routes of all parts go on from the route of the part that they lie in. -/
theorem exists_of_mem_partsFrom {path : Path} {v : Value} {part : Path × Value}
    (listed : part ∈ partsFrom roundTrip whole path v) : ∃ rest, part.1 = path ++ rest := by
  induction path, v using visit_induction roundTrip whole with
  | each path v ih =>
    rw [partsFrom_eq] at listed
    rcases List.mem_cons.1 listed with rfl | deeper
    · exact ⟨[], (List.append_nil _).symm⟩
    · obtain ⟨first, inside, within⟩ := mem_partsOfAll.1 deeper
      obtain ⟨segment, step⟩ := exists_of_mem_visit inside
      obtain ⟨rest, route⟩ := ih first inside within
      exact ⟨segment :: rest, by rw [route, step, List.append_assoc]; rfl⟩

/-- Parts of different parts stand at different routes, also where fields and keys are alike. -/
theorem pairwise_partsOfAll {path : Path} {parts : List (Path × Value)}
    (distinct : parts.Pairwise fun first second => ∃ a b,
      first.1 = path ++ [a] ∧ second.1 = path ++ [b] ∧ a.bare ≠ b.bare)
    (each : ∀ part ∈ parts, (partsFrom roundTrip whole part.1 part.2).Pairwise fun first second =>
      first.1.map Segment.bare ≠ second.1.map Segment.bare) :
    (partsOfAll roundTrip whole parts).Pairwise fun first second =>
      first.1.map Segment.bare ≠ second.1.map Segment.bare := by
  -- Two routes below different parts go apart at the step to these parts.
  refine List.pairwise_flatMap.2 ⟨each, distinct.imp ?_⟩
  rintro first second ⟨a, b, stepA, stepB, different⟩ part listed other listedOther same
  obtain ⟨rest, route⟩ := exists_of_mem_partsFrom listed
  obtain ⟨restOther, routeOther⟩ := exists_of_mem_partsFrom listedOther
  rw [route, routeOther, stepA, stepB] at same
  simp only [List.map_append, List.append_assoc, List.append_cancel_left_eq, List.map_cons,
    List.cons_append, List.cons.injEq] at same
  exact different same.1

/-- All parts stand at routes of their own, also where fields and keys are alike. -/
theorem pairwise_partsFrom (formed : whole.WellFormed) {path : Path} {v : Value}
    (found : whole.at? path = some v) :
    (partsFrom roundTrip whole path v).Pairwise fun first second =>
      first.1.map Segment.bare ≠ second.1.map Segment.bare := by
  induction path, v using visit_induction roundTrip whole with
  | each path v ih =>
    have placed : Placed whole (visit roundTrip whole path v).2 := placed_visit formed found
    rw [partsFrom_eq, List.pairwise_cons]
    constructor
    · -- Whatever lies below a part has a longer route.
      intro part deeper same
      obtain ⟨first, inside, within⟩ := mem_partsOfAll.1 deeper
      obtain ⟨segment, step⟩ := exists_of_mem_visit inside
      obtain ⟨rest, route⟩ := exists_of_mem_partsFrom within
      have lengths := congrArg List.length same
      simp [route, step] at lengths
    · exact pairwise_partsOfAll (visit_distinct path (formed.at? found))
        fun part inside => ih part inside (placed part inside)

end Parts

namespace Position

variable {roundTrip : Value → Option Value} {whole : Value} {path : Path} {v : Value}

/-- A part stands in the whole at its route. -/
theorem at? (position : Position roundTrip whole path v) : whole.at? path = some v := by
  induction position with
  | root => rfl
  | field _ found _ ih => rw [Path.field, Value.at?_concat ih]; exact found
  | key _ found _ _ ih => rw [Path.key, Value.at?_concat ih]; exact found
  | item _ found ih => rw [Path.index, Value.at?_concat ih]; exact found

/-- Below the root a visit leads from parts to parts. -/
theorem of_mem_visit (formed : whole.WellFormed) (position : Position roundTrip whole path v)
    (below : path ≠ []) {part : Path × Value}
    (listed : part ∈ (visit roundTrip whole path v).2) :
    Position roundTrip whole part.1 part.2 := by
  cases v with
  | array items =>
    obtain ⟨⟨item, i⟩, member, rfl⟩ := List.mem_map.1 listed
    exact .item position (List.mem_zipIdx_iff_getElem?.1 member)
  | object fields =>
    rw [visit_object] at listed
    obtain ⟨⟨name, w⟩, member, rfl⟩ := List.mem_map.1 listed
    have found := Keyed.get?_of_mem (formed.at? position.at?).distinct member
    cases empties : comesBackEmpty roundTrip whole path with
    | true => exact .key position found below (comesBackEmpty_eq_true.1 empties)
    | false =>
      refine .field position found (.inr fun returns => ?_)
      rw [comesBackEmpty_eq_true.2 returns] at empties
      contradiction
  | _ => simp [visit] at listed

/-- Below the root all parts of a part are parts. -/
theorem of_mem_partsFrom (formed : whole.WellFormed) (position : Position roundTrip whole path v)
    (below : path ≠ []) {part : Path × Value}
    (listed : part ∈ partsFrom roundTrip whole path v) :
    Position roundTrip whole part.1 part.2 := by
  induction path, v using visit_induction roundTrip whole with
  | each path v ih =>
    rw [partsFrom_eq] at listed
    rcases List.mem_cons.1 listed with rfl | deeper
    · exact position
    · obtain ⟨first, inside, within⟩ := mem_partsOfAll.1 deeper
      obtain ⟨segment, step⟩ := exists_of_mem_visit inside
      exact ih first inside (position.of_mem_visit formed below inside) (by simp [step]) within

/-- The parts below the root are those that are found from its fields. -/
theorem mem_partsOfAll_iff {fields : Fields} (formed : (Value.object fields).WellFormed) :
    (path, v) ∈ partsOfAll roundTrip (.object fields) (entriesAt .field Path.root fields) ↔
      path ≠ [] ∧ Position roundTrip (.object fields) path v := by
  constructor
  · intro member
    obtain ⟨first, listed, within⟩ := mem_partsOfAll.1 member
    obtain ⟨⟨name, w⟩, member, rfl⟩ := List.mem_map.1 listed
    obtain ⟨rest, route⟩ := exists_of_mem_partsFrom within
    have field : Position roundTrip (.object fields) (Path.root.field name) w :=
      .field .root (Keyed.get?_of_mem formed.distinct member) (.inl rfl)
    refine ⟨?_, of_mem_partsFrom formed field (by simp [Path.field]) within⟩
    have longer : path = Path.root ++ [.field name] ++ rest := route
    simp [longer]
  · rintro ⟨below, position⟩
    -- A part directly below the root is there from the start, and a visit leads to any other one.
    induction position with
    | root => contradiction
    | @field path entries name v inside found struct ih =>
      have member := Keyed.mem_of_get? found
      by_cases atRoot : path = []
      · subst atRoot
        obtain rfl := Value.object.inj (Option.some.inj inside.at?)
        exact mem_partsOfAll_self (List.mem_map.2 ⟨_, member, rfl⟩)
      · have stays : comesBackEmpty roundTrip (.object fields) path = false :=
          Bool.eq_false_iff.2 (mt comesBackEmpty_eq_true.1 (struct.resolve_left atRoot))
        refine partsOfAll_closed (ih atRoot) ?_
        rw [visit_object, stays]
        exact List.mem_map.2 ⟨_, member, rfl⟩
    | key inside found notRoot map ih =>
      refine partsOfAll_closed (ih notRoot) ?_
      rw [visit_object, comesBackEmpty_eq_true.2 map]
      exact List.mem_map.2 ⟨_, Keyed.mem_of_get? found, rfl⟩
    | @item path items i v inside found ih =>
      have notRoot : path ≠ [] := by
        rintro rfl
        exact absurd inside.at? (by simp [Value.at?])
      refine partsOfAll_closed (ih notRoot) ?_
      exact List.mem_map.2 ⟨(v, i), List.mem_zipIdx_iff_getElem?.2 found, rfl⟩

/-- Wherever names and positions lead there is a part, at a route that reads the same. -/
theorem exists_of_at? {route : Path} (found : whole.at? route = some v) :
    ∃ path, path.map Segment.bare = route.map Segment.bare ∧
      Position roundTrip whole path v := by
  -- The induction takes off the last step; the part in front of it decides how it is named.
  induction route using List.reverseRecOn generalizing v with
  | nil => exact ⟨[], rfl, Option.some.inj found ▸ .root⟩
  | append_singleton before segment ih =>
    rw [Value.at?_append] at found
    obtain ⟨part, leads, last⟩ := Option.bind_eq_some_iff.1 found
    obtain ⟨path, same, position⟩ := ih leads
    have step : part.step? segment = some v := by simpa [Value.at?] using last
    cases part with
    | array items =>
      cases segment with
      | index i => exact ⟨path.index i, by simp [Path.index, same], .item position step⟩
      | field name => simp [Value.step?] at step
      | key k => simp [Value.step?] at step
    | object fields =>
      rw [Value.step?_object] at step
      obtain ⟨name, named, held⟩ := Option.bind_eq_some_iff.1 step
      have asField : (Segment.field name).bare = segment.bare := by
        cases segment <;> simp_all [Segment.name?, Segment.bare]
      have asKey : (Segment.key name).bare = segment.bare := asField
      -- The object itself decides whether its entries are keys.
      by_cases isMap : path ≠ [] ∧ ReturnsEmpty roundTrip whole path
      · exact ⟨path.key name, by simp [Path.key, same, asKey],
          .key position held isMap.1 isMap.2⟩
      · refine ⟨path.field name, by simp [Path.field, same, asField],
          .field position held ?_⟩
        by_cases atRoot : path = []
        · exact .inl atRoot
        · exact .inr fun returns => isMap ⟨atRoot, returns⟩
    | _ => cases segment <;> simp [Value.step?] at step

end Position

namespace MapSearch

section Runs

variable {roundTrip : Value → Option Value} {whole : Value}

/-- The routes of all parts that a route leads to. -/
def territory (roundTrip : Value → Option Value) (whole : Value) (path : Path) : List Path :=
  match whole.at? path with
  | none => []
  | some v => (partsFrom roundTrip whole path v).map (·.1)

/-- The territories of several parts hold the routes of all their parts. -/
theorem territories_eq {parts : List (Path × Value)} (placed : Placed whole parts) :
    (parts.map (·.1)).flatMap (territory roundTrip whole) =
      (partsOfAll roundTrip whole parts).map (·.1) := by
  induction parts with
  | nil => rfl
  | cons part rest ih =>
    obtain ⟨here, later⟩ := List.forall_mem_cons.1 placed
    rw [List.map_cons, List.flatMap_cons, ih later, partsOfAll_cons, List.map_append, territory,
      here]

/-- A territory is the route itself and the territories of the routes that its visit adds. -/
theorem territory_eq (formed : whole.WellFormed) {path : Path} {v : Value}
    (found : whole.at? path = some v) :
    territory roundTrip whole path =
      path :: (lookInto roundTrip whole path).2.flatMap (territory roundTrip whole) := by
  rw [territory, lookInto, found]
  simp only [partsFrom_eq path v, List.map_cons, territories_eq (placed_visit formed found)]

/-- A search for which the routes visited and the territories of those that wait are all routes. -/
structure OnTrack (roundTrip : Value → Option Value) (whole : Value) (all : List Path)
    (steps : Nat) (search : MapSearch) : Prop where
  leads : ∀ path ∈ search.pending, ∃ v, whole.at? path = some v
  accounted :
    (search.visited ++ search.pending.flatMap (territory roundTrip whole)).Perm all
  found : search.found = search.visited.flatMap fun path => (lookInto roundTrip whole path).1
  counted : search.visited.length = steps

/-- The routes of all parts below the root. -/
def allRoutes (roundTrip : Value → Option Value) (fields : Fields) : List Path :=
  (partsOfAll roundTrip (.object fields) (entriesAt .field Path.root fields)).map (·.1)

/-- A search starts on track. -/
theorem OnTrack.start {fields : Fields} (formed : (Value.object fields).WellFormed) :
    OnTrack roundTrip (.object fields) (allRoutes roundTrip fields) 0
      (MapSearch.start fields) := by
  have placed : Placed (.object fields) (entriesAt .field Path.root fields) :=
    placed_entriesAt (fun _ => rfl) formed rfl
  have routes : (MapSearch.start fields).pending =
      (entriesAt .field Path.root fields).map (·.1) := by
    rw [entriesAt, List.map_map]
    rfl
  refine ⟨fun path waits => ?_, ?_, rfl, rfl⟩
  · obtain ⟨part, listed, rfl⟩ := List.mem_map.1 (routes ▸ waits)
    exact ⟨part.2, placed part listed⟩
  · rw [routes, territories_eq placed]
    exact .refl _

/-- A visit, of whichever route that waits, keeps a search on track. -/
theorem OnTrack.step (formed : whole.WellFormed) {all : List Path} {steps : Nat}
    {search next : MapSearch} (onTrack : OnTrack roundTrip whole all steps search)
    (step : Step roundTrip whole search next) :
    OnTrack roundTrip whole all (steps + 1) next := by
  -- The route that was taken leaves the pending ones, and what its visit leads to joins them.
  obtain ⟨taken, waits⟩ := step
  next path others waiting =>
  obtain ⟨v, found⟩ := onTrack.leads path (taken.mem_iff.2 List.mem_cons_self)
  refine ⟨fun route listed => ?_, ?_, ?_, by simp [onTrack.counted]⟩
  · rcases List.mem_append.1 (waits.mem_iff.1 listed) with below | other
    · rw [lookInto, found] at below
      obtain ⟨part, inside, rfl⟩ := List.mem_map.1 below
      exact ⟨part.2, placed_visit formed found part inside⟩
    · exact onTrack.leads route (taken.mem_iff.2 (List.mem_cons_of_mem _ other))
  · -- The territory of the visited route is split into the route and what now waits for it.
    have same : (search.visited ++ [path]) ++
          ((lookInto roundTrip whole path).2 ++ others).flatMap (territory roundTrip whole) =
        search.visited ++ (path :: others).flatMap (territory roundTrip whole) := by
      simp [territory_eq formed found]
    have moved := (waits.flatMap_right (territory roundTrip whole)).append_left
      (search.visited ++ [path])
    rw [same] at moved
    exact moved.trans (((taken.flatMap_right _).symm.append_left _).trans onTrack.accounted)
  · simp [onTrack.found]

/-- A search stays on track, however it runs. -/
theorem OnTrack.run (formed : whole.WellFormed) {all : List Path} {first search : MapSearch}
    {steps : Nat} (onTrack : OnTrack roundTrip whole all 0 first)
    (run : Run roundTrip whole first steps search) :
    OnTrack roundTrip whole all steps search := by
  induction run with
  | none => exact onTrack
  | more _ step ih => exact ih.step formed step

/-- Visiting the first route that waits and what lies below it at once is one way to search. -/
theorem run_collectMaps (formed : whole.WellFormed) {first search : MapSearch} {steps : Nat}
    {pending : List (Path × Value)} (placed : Placed whole pending)
    (run : Run roundTrip whole first steps search)
    (waits : search.pending = pending.map (·.1)) :
    ∃ final, Run roundTrip whole first (steps + pendingSize pending) final ∧
      final.pending = [] ∧ final.found = search.found ++ collectMaps roundTrip whole pending := by
  induction pending using collectMaps.induct roundTrip whole generalizing search steps with
  | case1 => exact ⟨search, run, waits, by rw [collectMaps, List.append_nil]⟩
  | @case2 path v pending found ih =>
    obtain ⟨here, later⟩ := List.forall_mem_cons.1 placed
    have looks : lookInto roundTrip whole path = (found.1, found.2.map (·.1)) := by
      rw [lookInto, here]
    have step : Step roundTrip whole search _ :=
      .take (.of_eq waits) (.refl ((lookInto roundTrip whole path).2 ++ pending.map (·.1)))
    obtain ⟨final, reached, finished, collects⟩ := ih
      (List.forall_mem_append.2 ⟨placed_visit formed here, later⟩) (.more run step)
      (by simp only [looks, List.map_append])
    refine ⟨final, ?_, finished, ?_⟩
    · have smaller : v.size = pendingSize found.2 + 1 := size_eq_visit roundTrip whole path v
      have sizes : steps + 1 + pendingSize (found.2 ++ pending) =
          steps + pendingSize ((path, v) :: pending) := by
        rw [pendingSize_append, pendingSize, smaller]
        omega
      exact sizes ▸ reached
    · rw [collects, looks, collectMaps, List.append_assoc]

end Runs

/-- A search that has visited every part once, and found what returns empty. -/
structure Exact (roundTrip : Value → Option Value) (whole : Value) (search : MapSearch) : Prop where
  /-- Visited are the parts below the root. -/
  visited : ∀ path, path ∈ search.visited ↔
    path ≠ [] ∧ ∃ v, Position roundTrip whole path v
  /-- Wherever names and positions lead has been visited. -/
  everywhere : ∀ route v, route ≠ [] → whole.at? route = some v →
    ∃ path ∈ search.visited, path.map Segment.bare = route.map Segment.bare
  /-- Nothing has been visited twice. -/
  once : (search.visited.map fun path => path.map Segment.bare).Nodup
  /-- Found are the routes, without positions, of filled objects that return empty. -/
  found : ∀ route, route ∈ search.found ↔ ∃ (path : Path) (entries : Fields), path ≠ [] ∧
    Position roundTrip whole path (.object entries) ∧ entries ≠ [] ∧
      ReturnsEmpty roundTrip whole path ∧ route = path.withoutPositions

variable {roundTrip : Value → Option Value} {fields : Fields}

/-- The routes below the root are told apart by their names and positions. -/
theorem nodup_allRoutes (formed : (Value.object fields).WellFormed) :
    ((allRoutes roundTrip fields).map fun path => path.map Segment.bare).Nodup := by
  have placed : Placed (.object fields) (entriesAt .field Path.root fields) :=
    placed_entriesAt (fun _ => rfl) formed rfl
  have distinct : (entriesAt .field Path.root fields).Pairwise fun first second => ∃ a b,
      first.1 = Path.root ++ [a] ∧ second.1 = Path.root ++ [b] ∧ a.bare ≠ b.bare := by
    refine List.pairwise_map.2 ((List.pairwise_map.1 formed.distinct).imp fun different => ?_)
    exact ⟨_, _, rfl, rfl, fun same => different (Segment.field.inj same)⟩
  rw [allRoutes, List.map_map]
  exact List.pairwise_map.2 (pairwise_partsOfAll distinct fun part listed =>
    pairwise_partsFrom formed (placed part listed))

/-- A search that has visited all routes is exact. -/
theorem exact_of_perm (formed : (Value.object fields).WellFormed) {search : MapSearch}
    (visits : search.visited.Perm (allRoutes roundTrip fields))
    (finds : search.found =
      search.visited.flatMap fun path => (lookInto roundTrip (.object fields) path).1) :
    Exact roundTrip (.object fields) search := by
  -- The routes of all parts have been visited, and whatever is found has been found by a visit.
  have visited : ∀ path, path ∈ search.visited ↔
      path ≠ [] ∧ ∃ v, Position roundTrip (.object fields) path v := by
    intro path
    rw [visits.mem_iff, allRoutes, List.mem_map]
    constructor
    · rintro ⟨⟨_, v⟩, listed, rfl⟩
      obtain ⟨below, position⟩ := (Position.mem_partsOfAll_iff formed).1 listed
      exact ⟨below, v, position⟩
    · rintro ⟨below, v, position⟩
      exact ⟨(path, v), (Position.mem_partsOfAll_iff formed).2 ⟨below, position⟩, rfl⟩
  refine ⟨visited, ?_, ?_, ?_⟩
  · intro route v below leads
    obtain ⟨path, same, position⟩ : ∃ path : Path, path.map Segment.bare = route.map Segment.bare ∧
        Position roundTrip (.object fields) path v := Position.exists_of_at? leads
    refine ⟨path, (visited path).2 ⟨?_, v, position⟩, same⟩
    rintro rfl
    exact below (List.map_eq_nil_iff.1 same.symm)
  · exact (visits.map _).nodup_iff.2 (nodup_allRoutes formed)
  · intro route
    rw [finds, List.mem_flatMap]
    constructor
    · rintro ⟨path, listed, looks⟩
      obtain ⟨below, v, position⟩ := (visited path).1 listed
      rw [lookInto, position.at?] at looks
      obtain ⟨entries, rfl, filled, returns, same⟩ := mem_visit.1 looks
      exact ⟨path, entries, below, position, filled, returns, same⟩
    · rintro ⟨path, entries, below, position, filled, returns, same⟩
      refine ⟨path, (visited path).2 ⟨below, _, position⟩, ?_⟩
      rw [lookInto, position.at?]
      exact mem_visit.2 ⟨entries, rfl, filled, returns, same⟩

/-- There are as many parts below the root as there are values in its fields. -/
theorem length_allRoutes : (allRoutes roundTrip fields).length = Value.sizeFields fields := by
  rw [allRoutes, List.length_map, length_partsOfAll fun _ _ => length_partsFrom _ _,
    pendingSize_entriesAt]

/-- A search that has begun with the fields of the root is on track. -/
theorem Run.onTrack (formed : (Value.object fields).WellFormed) {steps : Nat} {search : MapSearch}
    (run : Run roundTrip (.object fields) (start fields) steps search) :
    OnTrack roundTrip (.object fields) (allRoutes roundTrip fields) steps search :=
  (OnTrack.start formed).run formed run

/-- A search makes no more visits than there are values below the root. -/
theorem Run.steps_le (formed : (Value.object fields).WellFormed) {steps : Nat} {search : MapSearch}
    (run : Run roundTrip (.object fields) (start fields) steps search) :
    steps ≤ Value.sizeFields fields := by
  have lengths := (run.onTrack formed).accounted.length_eq
  rw [List.length_append, (run.onTrack formed).counted, length_allRoutes] at lengths
  omega

/-- Once nothing waits all routes have been visited, in some order. -/
theorem Run.visited_perm (formed : (Value.object fields).WellFormed) {steps : Nat}
    {final : MapSearch} (run : Run roundTrip (.object fields) (start fields) steps final)
    (finished : final.pending = []) : final.visited.Perm (allRoutes roundTrip fields) := by
  simpa [finished] using (run.onTrack formed).accounted

/-- Two searches that end have found the same, since what is found depends on the visits alone. -/
theorem Run.found_perm (formed : (Value.object fields).WellFormed) {steps others : Nat}
    {final other : MapSearch} (run : Run roundTrip (.object fields) (start fields) steps final)
    (finished : final.pending = [])
    (runOther : Run roundTrip (.object fields) (start fields) others other)
    (finishedOther : other.pending = []) : final.found.Perm other.found := by
  rw [(run.onTrack formed).found, (runOther.onTrack formed).found]
  exact ((run.visited_perm formed finished).trans
    (runOther.visited_perm formed finishedOther).symm).flatMap_right _

/-- One of the searches that end finds the maps in the order of `mapPaths`. -/
theorem exists_run_mapPaths (roundTrip : Value → Option Value)
    (formed : (Value.object fields).WellFormed) :
    ∃ final, Run roundTrip (.object fields) (start fields) (Value.sizeFields fields) final ∧
      final.pending = [] ∧ final.found = mapPaths roundTrip fields := by
  have placed : Placed (.object fields) (entriesAt .field Path.root fields) :=
    placed_entriesAt (fun _ => rfl) formed rfl
  obtain ⟨final, run, finished, found⟩ := run_collectMaps formed placed
    (Run.none : Run roundTrip (.object fields) (start fields) 0 (start fields))
    (by rw [entriesAt, List.map_map]; rfl)
  rw [pendingSize_entriesAt, Nat.zero_add] at run
  exact ⟨final, run, finished, found⟩

/--
The search for maps ends and is exact in whatever order it goes.

It makes one visit for each value below the root, and may go on with any route that waits. Once
nothing waits, every part has been visited once, and what has been found is the same for all orders,
of which `mapPaths` takes one.
-/
theorem map_search_is_exact (roundTrip : Value → Option Value) {fields : Fields}
    (formed : (Value.object fields).WellFormed) :
    (∀ steps search, Run roundTrip (.object fields) (start fields) steps search →
      steps ≤ Value.sizeFields fields ∧
      ∀ path ∈ search.pending, ∃ next, Step roundTrip (.object fields) search next ∧
        next.visited = search.visited ++ [path]) ∧
    (∀ steps final, Run roundTrip (.object fields) (start fields) steps final →
      final.pending = [] →
      steps = Value.sizeFields fields ∧ Exact roundTrip (.object fields) final ∧
      final.found.Perm (mapPaths roundTrip fields)) ∧
    ∃ final, Run roundTrip (.object fields) (start fields) (Value.sizeFields fields) final ∧
      final.pending = [] ∧ final.found = mapPaths roundTrip fields := by
  obtain ⟨own, ownRun, ownFinished, ownFound⟩ := exists_run_mapPaths roundTrip formed
  refine ⟨fun steps search run => ⟨run.steps_le formed, fun path waits => ?_⟩,
    fun steps final run finished => ⟨?_, ?_, ?_⟩, own, ownRun, ownFinished, ownFound⟩
  · exact ⟨_, .take (List.perm_cons_erase waits) (.refl _), rfl⟩
  · rw [← (run.onTrack formed).counted, (run.visited_perm formed finished).length_eq,
      length_allRoutes]
  · exact exact_of_perm formed (run.visited_perm formed finished) (run.onTrack formed).found
  · rw [← ownFound]
    exact run.found_perm formed finished ownRun ownFinished

/-- A map of rules, and a sequence of maps of which one is filled. -/
def ruledFields : Fields :=
  [("Items", .array [.object [("a", .string "b")], .object []]),
    ("Rules", .object [("web", .object [("Port", .whole 80), ("Protocol", .string "tcp")])])]

/-- The rules and each of the items are maps, and a single rule is a struct. -/
theorem map_search_is_exact_of_rules :
    (Value.object ruledFields).WellFormed ∧
    (∃ final, Run Catalog.maps.rebuild (.object ruledFields) (start ruledFields) 8 final ∧
      final.pending = [] ∧ final.found = [[.field "Items"], [.field "Rules"]]) ∧
    ∀ steps final, Run Catalog.maps.rebuild (.object ruledFields) (start ruledFields) steps final →
      final.pending = [] →
      steps = 8 ∧ final.found.Perm [[.field "Items"], [.field "Rules"]] := by
  have formed : (Value.object ruledFields).WellFormed := by decide
  have maps : mapPaths Catalog.maps.rebuild ruledFields = [[.field "Items"], [.field "Rules"]] := by
    decide +kernel
  obtain ⟨_, ends, own⟩ := map_search_is_exact Catalog.maps.rebuild formed
  rw [maps] at ends own
  refine ⟨formed, own, fun steps final run finished => ?_⟩
  obtain ⟨size, _, same⟩ := ends steps final run finished
  exact ⟨size, same⟩

end MapSearch

end Triversion
