import Triversion.Proofs.Shape.Rebuild

/-!
Routes through shapes.

A route into a value is a route into its shape as well. If the shape always writes all of a record,
changing the part at the end of a route changes what is rebuilt in the same place and nowhere else.
-/

namespace Triversion

namespace Path

/-- The names along a route, which has none at its positions. -/
abbrev names (path : Path) : List String :=
  path.filterMap Segment.name?

@[simp] theorem names_field (path : Path) (name : String) :
    names (path.field name) = path.names ++ [name] := by
  rw [names, Path.field, List.filterMap_append]
  rfl

@[simp] theorem names_key (path : Path) (k : String) :
    names (path.key k) = path.names ++ [k] := by
  rw [names, Path.key, List.filterMap_append]
  rfl

@[simp] theorem names_index (path : Path) (i : Nat) : names (path.index i) = path.names := by
  rw [names, Path.index, List.filterMap_append]
  exact List.append_nil _

/-- A route and the route without its positions have the same names. -/
@[simp] theorem names_withoutPositions (path : Path) :
    path.withoutPositions.names = path.names := by
  induction path with
  | nil => rfl
  | cons segment rest ih =>
    cases segment with
    | index i => exact ih
    | field name => exact congrArg (name :: ·) ih
    | key k => exact congrArg (k :: ·) ih

end Path

/-- A value that no field is left out for: neither null nor a sequence without items. -/
def Value.isSolid (v : Value) : Bool :=
  !v.isNull && !(v.isArray && v.isBlank)

/-- A field stays in the written form with a value that is neither null nor an empty sequence. -/
theorem FieldRule.keeps_of_isSolid (rule : FieldRule) {v : Value} (solid : v.isSolid = true) :
    rule.keeps v = true := by
  obtain ⟨present, filled⟩ := Bool.and_eq_true_iff.1 solid
  unfold FieldRule.keeps
  split
  · rfl
  · exact present
  · exact filled

/-- A change inside a value leaves it as solid as what is put there. -/
theorem Value.isSolid_modifyAt {path : Path} {f : Value → Value} {v part : Value}
    (found : v.at? path = some part) (solid : (f part).isSolid = true) :
    (v.modifyAt path f).isSolid = true := by
  cases path with
  | nil =>
    obtain rfl := Option.some.inj found
    exact solid
  | cons segment rest =>
    obtain ⟨next, first, _⟩ := Option.bind_eq_some_iff.1 found
    -- Something that has parts is an object, or a sequence with items.
    cases v with
    | array items =>
      cases segment with
      | index i =>
        cases items with
        | nil => simp [Value.step?] at first
        | cons head tail =>
          cases i <;> simp [Value.modifyAt, Value.modifyStep, Value.isSolid, Value.isNull,
            Value.isArray, Value.isBlank]
      | field name => simp [Value.step?] at first
      | key k => simp [Value.step?] at first
    | object fields =>
      cases segment <;> simp [Value.modifyAt, Value.modifyStep, Value.isSolid, Value.isNull,
        Value.isArray, Segment.name?]
    | _ => cases segment <;> simp [Value.step?] at first

namespace Shape

/-- One step of a route leads from a shape to the shape of a part. -/
inductive Step : Segment → Shape → Shape → Prop where
  | optional {segment : Segment} {shape inner : Shape} (step : Step segment shape inner) :
    Step segment (.optional shape) inner
  | item {shape : Shape} (i : Nat) : Step (.index i) (.list shape) shape
  | entry {segment : Segment} {name : String} (named : segment.name? = some name)
    (decimalKeys : Bool) (shape : Shape) : Step segment (.map decimalKeys shape) shape
  | field {segment : Segment} {rule : RecordRule} {fields : List (FieldRule × Shape)}
    {field : FieldRule × Shape} (member : field ∈ fields)
    (named : segment.name? = some field.1.name) : Step segment (.record rule fields) field.2

/-- A route leads from a shape to the shape of the part at its end. -/
def Leads : Path → Shape → Shape → Prop
  | [], shape, inner => shape = inner
  | segment :: path, shape, inner => ∃ next, Step segment shape next ∧ Leads path next inner

/-- What is left of a shape without its optionals and sequences. -/
def core : Shape → Shape
  | .optional shape => core shape
  | .list shape => core shape
  | shape => shape

/-- Whether a shape is that of a map. -/
def isMap : Shape → Bool
  | .map _ _ => true
  | _ => false

/-- The shape of what stands under a name. -/
def under? (name : String) : Shape → Option Shape
  | .map _ shape => some shape
  | .record _ fields => (fields.find? fun field => field.1.name = name).map (·.2)
  | _ => none

/-- The core of the shape that some names lead to; positions are passed without a name. -/
def follow : List String → Shape → Option Shape
  | [], shape => some shape.core
  | name :: names, shape => (shape.core.under? name).bind (follow names)

@[simp] theorem core_core (shape : Shape) : shape.core.core = shape.core := by
  induction shape using inductionOn with
  | optional shape ih => exact ih
  | list shape ih => exact ih
  | _ => rfl

/-- Only the core of a shape decides where names lead. -/
theorem follow_core (names : List String) (shape : Shape) :
    follow names shape.core = follow names shape := by
  cases names <;> simp [follow]

/-- Names lead into the items of a sequence. -/
@[simp] theorem follow_list (names : List String) (shape : Shape) :
    follow names (.list shape) = follow names shape := by
  rw [← follow_core, core, follow_core]

/-- Names lead into what is optional. -/
@[simp] theorem follow_optional (names : List String) (shape : Shape) :
    follow names (.optional shape) = follow names shape := by
  rw [← follow_core, core, follow_core]

/-- Names lead on from where earlier names led. -/
theorem follow_append (before after : List String) (shape : Shape) :
    follow (before ++ after) shape = (follow before shape).bind (follow after) := by
  induction before generalizing shape with
  | nil => exact (follow_core after shape).symm
  | cons name rest ih =>
    simp only [List.cons_append, follow, Option.bind_assoc]
    exact Option.bind_congr fun inner _ => ih inner

mutual
/-- Whether a condition holds of a shape and of every shape inside it. -/
def everywhere (condition : Shape → Bool) : Shape → Bool
  | .optional shape => condition (.optional shape) && everywhere condition shape
  | .list shape => condition (.list shape) && everywhere condition shape
  | .map decimalKeys shape =>
    condition (.map decimalKeys shape) && everywhere condition shape
  | .tuple shapes => condition (.tuple shapes) && everywhereIn condition shapes
  | .record rule fields => condition (.record rule fields) && everywhereInFields condition fields
  | shape => condition shape

/-- Whether a condition holds everywhere in each of several shapes. -/
def everywhereIn (condition : Shape → Bool) : List Shape → Bool
  | [] => true
  | shape :: rest => everywhere condition shape && everywhereIn condition rest

/-- Whether a condition holds everywhere in the shape of each field. -/
def everywhereInFields (condition : Shape → Bool) : List (FieldRule × Shape) → Bool
  | [] => true
  | field :: rest => everywhere condition field.2 && everywhereInFields condition rest
end

/-- Whether a condition holds of a shape, or of what it makes optional. -/
def holds (condition : Shape → Bool) : Shape → Bool
  | .optional shape => holds condition shape
  | shape => condition shape

section Everywhere

variable {condition : Shape → Bool}

theorem everywhere_optional {shape : Shape} :
    (Shape.optional shape).everywhere condition = true ↔
      condition (.optional shape) = true ∧ shape.everywhere condition = true := by
  rw [everywhere, Bool.and_eq_true]

theorem everywhere_list {shape : Shape} :
    (Shape.list shape).everywhere condition = true ↔
      condition (.list shape) = true ∧ shape.everywhere condition = true := by
  rw [everywhere, Bool.and_eq_true]

theorem everywhere_map {decimalKeys : Bool} {shape : Shape} :
    (Shape.map decimalKeys shape).everywhere condition = true ↔
      condition (.map decimalKeys shape) = true ∧ shape.everywhere condition = true := by
  rw [everywhere, Bool.and_eq_true]

/-- What holds everywhere in a record holds everywhere in its fields. -/
theorem everywhere_record {rule : RecordRule} {fields : List (FieldRule × Shape)} :
    (Shape.record rule fields).everywhere condition = true ↔
      condition (.record rule fields) = true ∧
        ∀ field ∈ fields, field.2.everywhere condition = true := by
  have general : everywhereInFields condition fields = true ↔
      ∀ field ∈ fields, field.2.everywhere condition = true := by
    induction fields with
    | nil => simp [everywhereInFields]
    | cons field rest ih => simp [everywhereInFields, ih]
  rw [everywhere, Bool.and_eq_true, general]

/-- What holds everywhere in a tuple holds everywhere in its parts. -/
theorem everywhere_tuple {shapes : List Shape} :
    (Shape.tuple shapes).everywhere condition = true ↔
      condition (.tuple shapes) = true ∧ ∀ shape ∈ shapes, shape.everywhere condition = true := by
  have general : everywhereIn condition shapes = true ↔
      ∀ shape ∈ shapes, shape.everywhere condition = true := by
    induction shapes with
    | nil => simp [everywhereIn]
    | cons shape rest ih => simp [everywhereIn, ih]
  rw [everywhere, Bool.and_eq_true, general]

/-- What holds everywhere in a shape holds of the shape. -/
theorem here_of_everywhere {shape : Shape} (holds : shape.everywhere condition = true) :
    condition shape = true := by
  cases shape <;> simp_all [everywhere]

theorem holds_of_everywhere {shape : Shape} (inside : shape.everywhere condition = true) :
    shape.holds condition = true := by
  induction shape using inductionOn with
  | optional shape ih => exact ih (everywhere_optional.1 inside).2
  | _ =>
    have here : condition _ = true := here_of_everywhere inside
    exact here

theorem holds_mono {stronger weaker : Shape → Bool} {shape : Shape}
    (implies : ∀ inner, stronger inner = true → weaker inner = true)
    (strong : shape.holds stronger = true) : shape.holds weaker = true := by
  induction shape using inductionOn with
  | optional shape ih => exact ih strong
  | _ => exact implies _ strong

/-- What holds everywhere in a shape holds everywhere in the shape of each part. -/
theorem Step.everywhere {segment : Segment} {shape inner : Shape}
    (step : Step segment shape inner) (holds : shape.everywhere condition = true) :
    inner.everywhere condition = true := by
  induction step with
  | optional step ih => exact ih (everywhere_optional.1 holds).2
  | item i => exact (everywhere_list.1 holds).2
  | entry named decimalKeys shape => exact (everywhere_map.1 holds).2
  | field member named => exact (everywhere_record.1 holds).2 _ member

theorem Leads.everywhere {path : Path} {shape inner : Shape} (leads : Leads path shape inner)
    (holds : shape.everywhere condition = true) : inner.everywhere condition = true := by
  induction path generalizing shape with
  | nil => exact leads ▸ holds
  | cons segment rest ih =>
    obtain ⟨next, step, later⟩ := leads
    exact ih later (step.everywhere holds)

/-- What holds everywhere in a shape holds everywhere in its core. -/
theorem everywhere_core {shape : Shape} (holds : shape.everywhere condition = true) :
    shape.core.everywhere condition = true := by
  induction shape using inductionOn with
  | optional shape ih => exact ih (everywhere_optional.1 holds).2
  | list shape ih => exact ih (everywhere_list.1 holds).2
  | _ => exact holds

/-- What holds everywhere in a shape holds everywhere under its names. -/
theorem everywhere_under? {shape inner : Shape} {name : String}
    (holds : shape.everywhere condition = true) (found : shape.under? name = some inner) :
    inner.everywhere condition = true := by
  cases shape with
  | map decimalKeys shape =>
    obtain rfl : shape = inner := Option.some.inj found
    exact (everywhere_map.1 holds).2
  | record rule fields =>
    obtain ⟨field, first, rfl⟩ := Option.map_eq_some_iff.1 found
    exact (everywhere_record.1 holds).2 field (List.mem_of_find?_eq_some first)
  | _ => simp [under?] at found

/-- A weaker condition holds wherever a stronger one does. -/
theorem everywhere_mono {stronger weaker : Shape → Bool} {shape : Shape}
    (weakens : ∀ shape, stronger shape = true → weaker shape = true)
    (holds : shape.everywhere stronger = true) : shape.everywhere weaker = true := by
  induction shape using inductionOn with
  | optional shape ih | list shape ih | map decimalKeys shape ih =>
    rw [Shape.everywhere, Bool.and_eq_true] at holds ⊢
    exact ⟨weakens _ holds.1, ih holds.2⟩
  | tuple shapes ih =>
    obtain ⟨here, inside⟩ := everywhere_tuple.1 holds
    exact everywhere_tuple.2 ⟨weakens _ here, fun shape member => ih shape member
      (inside shape member)⟩
  | record rule fields ih =>
    obtain ⟨here, inside⟩ := everywhere_record.1 holds
    exact everywhere_record.2 ⟨weakens _ here, fun field member => ih field member
      (inside field member)⟩
  | _ => exact weakens _ holds

end Everywhere

/-- A route goes on where another one ends. -/
theorem Leads.append {before after : Path} {shape middle inner : Shape}
    (first : Leads before shape middle) (second : Leads after middle inner) :
    Leads (before ++ after) shape inner := by
  induction before generalizing shape with
  | nil => exact first ▸ second
  | cons segment rest ih =>
    obtain ⟨next, step, later⟩ := first
    exact ⟨next, step, ih later⟩

/-- A record declares no name twice. -/
def declaresOnce : Shape → Bool
  | .record _ fields => decide (names fields).Nodup
  | _ => true

/-- A name that is declared once is the name of its field. -/
theorem under?_record {rule : RecordRule} {fields : List (FieldRule × Shape)}
    (distinct : (names fields).Nodup) {field : FieldRule × Shape} (member : field ∈ fields) :
    (Shape.record rule fields).under? field.1.name = some field.2 := by
  cases found : fields.find? fun other => other.1.name = field.1.name with
  | none => simpa using List.find?_eq_none.1 found field member
  | some other =>
    have same : other.1.name = field.1.name := by simpa using List.find?_some found
    obtain rfl := eq_of_names distinct (List.mem_of_find?_eq_some found) member same
    simp [under?, found]

/-- A name that leads into a record is the name of one of its fields. -/
theorem exists_field_of_under? {rule : RecordRule} {fields : List (FieldRule × Shape)}
    {name : String} {inner : Shape} (found : (Shape.record rule fields).under? name = some inner) :
    ∃ field ∈ fields, field.1.name = name ∧ field.2 = inner := by
  obtain ⟨field, first, same⟩ := Option.map_eq_some_iff.1 found
  exact ⟨field, List.mem_of_find?_eq_some first, by simpa using List.find?_some first, same⟩

/-- Where names are declared once, they lead where the route leads. -/
theorem Step.follow {segment : Segment} {shape inner : Shape} (step : Step segment shape inner)
    (once : shape.everywhere declaresOnce = true) (names : List String) :
    follow (segment.name?.toList ++ names) shape = Shape.follow names inner := by
  induction step with
  | optional step ih =>
    rw [follow_optional, ih (everywhere_optional.1 once).2]
  | item i => exact follow_list names _
  | entry named decimalKeys shape => simp [named, Shape.follow, core, under?]
  | field member named =>
    have distinct := of_decide_eq_true (everywhere_record.1 once).1
    simp [named, Shape.follow, core, under?_record distinct member]

theorem Leads.follow {path : Path} {shape inner : Shape} (leads : Leads path shape inner)
    (once : shape.everywhere declaresOnce = true) :
    follow (Path.names path) shape = some inner.core := by
  induction path generalizing shape with
  | nil => exact leads ▸ rfl
  | cons segment rest ih =>
    obtain ⟨next, step, later⟩ := leads
    have names : Path.names (segment :: rest) = segment.name?.toList ++ Path.names rest := by
      cases segment <;> rfl
    rw [names, step.follow once, ih later (step.everywhere once)]

/-- A step leads to one shape, if no name is declared twice. -/
theorem Step.unique {segment : Segment} {shape first second : Shape}
    (one : Step segment shape first) (another : Step segment shape second)
    (once : shape.holds declaresOnce = true) : first = second := by
  induction one with
  | optional step ih =>
    cases another with
    | optional step' => exact ih step' once
  | item i => cases another with | item _ => rfl
  | entry named decimalKeys shape => cases another with | entry _ _ _ => rfl
  | field member named =>
    cases another with
    | field member' named' =>
      have distinct := of_decide_eq_true once
      rw [eq_of_names distinct member member' (Option.some.inj (named.symm.trans named'))]

/-- All positions lead to the same shape. -/
theorem Step.index {i : Nat} {shape inner : Shape} (step : Step (.index i) shape inner) (j : Nat) :
    Step (.index j) shape inner := by
  generalize position : Segment.index i = segment at step
  induction step with
  | optional _ ih => exact .optional (ih position)
  | item _ => exact .item j
  | entry named | field _ named => simp [← position, Segment.name?] at named

/-- All keys of a map lead to the same shape. -/
theorem Step.key {k : String} {shape inner : Shape} (step : Step (.key k) shape inner)
    (isMap : shape.core.isMap = true) (other : String) : Step (.key other) shape inner := by
  generalize same : Segment.key k = segment at step
  induction step with
  | optional _ ih => exact .optional (ih isMap same)
  | item _ => contradiction
  | entry _ decimalKeys shape => exact .entry rfl decimalKeys shape
  | field _ _ => simp [core, Shape.isMap] at isMap

/-- A step leads where a step of the same name leads. -/
theorem Step.of_bare_eq {segment other : Segment} {shape inner : Shape}
    (step : Step segment shape inner) (same : segment.bare = other.bare) :
    Step other shape inner := by
  induction step with
  | optional _ ih => exact .optional (ih same)
  | item i =>
    cases other with
    | index j => exact .item j
    | field name | key k => contradiction
  | entry named decimalKeys shape =>
    exact .entry ((Value.name?_of_bare_eq same).symm.trans named) decimalKeys shape
  | field member named => exact .field member ((Value.name?_of_bare_eq same).symm.trans named)

/-- One step of a route, with a key into a map and a field into a record. -/
inductive Enters : Segment → Shape → Shape → Prop where
  | optional {segment : Segment} {shape inner : Shape} (enters : Enters segment shape inner) :
    Enters segment (.optional shape) inner
  | item {shape : Shape} (i : Nat) : Enters (.index i) (.list shape) shape
  | key (k : String) (decimalKeys : Bool) (shape : Shape) :
    Enters (.key k) (.map decimalKeys shape) shape
  | field {rule : RecordRule} {fields : List (FieldRule × Shape)} {field : FieldRule × Shape}
    (member : field ∈ fields) : Enters (.field field.1.name) (.record rule fields) field.2

/-- A route of struct fields, map keys and positions leads from a shape to the shape of a part. -/
def Reaches : Path → Shape → Shape → Prop
  | [], shape, inner => shape = inner
  | segment :: path, shape, inner => ∃ next, Enters segment shape next ∧ Reaches path next inner

theorem Enters.step {segment : Segment} {shape inner : Shape}
    (enters : Enters segment shape inner) : Step segment shape inner := by
  induction enters with
  | optional _ ih => exact .optional ih
  | item i => exact .item i
  | key k decimalKeys shape => exact .entry rfl decimalKeys shape
  | field member => exact .field member rfl

theorem Reaches.leads {path : Path} {shape inner : Shape} (reaches : Reaches path shape inner) :
    Leads path shape inner := by
  induction path generalizing shape with
  | nil => exact reaches
  | cons segment rest ih =>
    obtain ⟨next, enters, later⟩ := reaches
    exact ⟨next, enters.step, ih later⟩

theorem Reaches.append {before after : Path} {shape middle inner : Shape}
    (first : Reaches before shape middle) (second : Reaches after middle inner) :
    Reaches (before ++ after) shape inner := by
  induction before generalizing shape with
  | nil => exact first ▸ second
  | cons segment rest ih =>
    obtain ⟨next, enters, later⟩ := first
    exact ⟨next, enters, ih later⟩

/-- A route leads through all the places on its way. -/
theorem Reaches.split {before after : Path} {shape inner : Shape}
    (reaches : Reaches (before ++ after) shape inner) :
    ∃ middle, Reaches before shape middle ∧ Reaches after middle inner := by
  induction before generalizing shape with
  | nil => exact ⟨shape, rfl, reaches⟩
  | cons segment rest ih =>
    obtain ⟨next, enters, later⟩ := reaches
    obtain ⟨middle, first, second⟩ := ih later
    exact ⟨middle, ⟨next, enters, first⟩, second⟩

/-- A route that starts with a field of the root; if the root is a map, its keys are its fields. -/
def Below : Path → Shape → Shape → Prop
  | .field name :: path, shape, inner =>
    ∃ next, Step (.field name) shape next ∧ Reaches path next inner
  | _, _, _ => False

theorem Below.leads {path : Path} {shape inner : Shape} (below : Below path shape inner) :
    Leads path shape inner := by
  cases path with
  | nil => exact below.elim
  | cons segment rest =>
    cases segment with
    | field name =>
      obtain ⟨next, step, reached⟩ := below
      exact ⟨next, step, reached.leads⟩
    | index i | key k => exact below.elim

/-- What a route below the root reaches is below the root. -/
theorem Below.append {before after : Path} {shape middle inner : Shape}
    (first : Below before shape middle) (second : Reaches after middle inner) :
    Below (before ++ after) shape inner := by
  cases before with
  | nil => exact first.elim
  | cons segment rest =>
    cases segment with
    | field name =>
      obtain ⟨next, step, reached⟩ := first
      exact ⟨next, step, reached.append second⟩
    | index i | key k => exact first.elim

/-- A record that always writes all its fields, each of them as it is read, and nothing else. -/
def writesAll (rule : RecordRule) (fields : List (FieldRule × Shape)) : Bool :=
  decide (rule.unknown ≠ .kept) && decide (names fields).Nodup &&
    fields.all fun field => decide (field.1.omission = .never) && decide (field.1.pinned = none)

/-- Whether what is inside values of a shape is known, and written without exception. -/
def isSteady : Shape → Bool
  | .any => false
  | .tuple _ => false
  | .record rule fields => writesAll rule fields
  | _ => true

/-- A record that reads every field it declares, declares no name twice, and keeps nothing else. -/
def readsAll (rule : RecordRule) (fields : List (FieldRule × Shape)) : Bool :=
  decide (rule.unknown ≠ .kept) && decide (names fields).Nodup &&
    fields.all fun field => decide (field.1.pinned = none)

/--
Whether what is inside values of a shape is known, and a struct never comes back empty.

A record may leave fields out of what it writes, but not all of them, if it declares any.
-/
def isAnchored : Shape → Bool
  | .any => false
  | .tuple _ => false
  | .record rule fields =>
    readsAll rule fields &&
      (fields.isEmpty || fields.any fun field => decide (field.1.omission = .never))
  | _ => true

/-- All shapes that a route passes are anchored, whatever is beside it. -/
def AnchoredAlong : Path → Shape → Prop
  | [], shape => shape.holds isAnchored = true
  | segment :: path, shape =>
    shape.holds isAnchored = true ∧ ∀ inner, Step segment shape inner → AnchoredAlong path inner

section Anchored

variable {rule : RecordRule} {fields : List (FieldRule × Shape)}

theorem readsAll_iff : readsAll rule fields = true ↔
    rule.unknown ≠ .kept ∧ (names fields).Nodup ∧
      ∀ field ∈ fields, field.1.pinned = none := by
  simp [readsAll, and_assoc]

theorem isAnchored.readsAll (anchored : (Shape.record rule fields).isAnchored = true) :
    Shape.readsAll rule fields = true :=
  (Bool.and_eq_true_iff.1 anchored).1

/-- A struct with fields has one that is always written. -/
theorem isAnchored.exists_never (anchored : (Shape.record rule fields).isAnchored = true)
    (declares : fields ≠ []) : ∃ field ∈ fields, field.1.omission = .never := by
  have written := (Bool.and_eq_true_iff.1 anchored).2
  cases fields with
  | nil => contradiction
  | cons first rest => simpa using written

theorem isAnchored.declaresOnce {shape : Shape} (anchored : shape.isAnchored = true) :
    shape.declaresOnce = true := by
  cases shape with
  | record rule fields => exact decide_eq_true (readsAll_iff.1 (isAnchored.readsAll anchored)).2.1
  | _ => rfl

theorem anchoredAlong_of_everywhere {path : Path} {shape : Shape}
    (anchored : shape.everywhere Shape.isAnchored = true) : AnchoredAlong path shape := by
  induction path generalizing shape with
  | nil => exact holds_of_everywhere anchored
  | cons segment rest ih =>
    exact ⟨holds_of_everywhere anchored, fun inner step => ih (step.everywhere anchored)⟩

namespace AnchoredAlong

variable {before after : Path} {shape inner : Shape}

/-- The shape that a route starts from is anchored. -/
theorem here {path : Path} (along : AnchoredAlong path shape) : shape.holds isAnchored = true := by
  cases path with
  | nil => exact along
  | cons segment rest => exact along.1

theorem start (along : AnchoredAlong (before ++ after) shape) : AnchoredAlong before shape := by
  induction before generalizing shape with
  | nil => exact along.here
  | cons segment rest ih => exact ⟨along.1, fun inner step => ih (along.2 inner step)⟩

theorem rest (along : AnchoredAlong (before ++ after) shape) (leads : Leads before shape inner) :
    AnchoredAlong after inner := by
  induction before generalizing shape with
  | nil =>
    obtain rfl : shape = inner := leads
    exact along
  | cons segment rest ih =>
    obtain ⟨next, step, onward⟩ := leads
    exact ih (along.2 next step) onward

/-- The shape at the end of an anchored route is anchored. -/
theorem last (along : AnchoredAlong before shape) (leads : Leads before shape inner) :
    inner.holds isAnchored = true := by
  rw [← List.append_nil before] at along
  exact along.rest leads

end AnchoredAlong

/-- Along anchored shapes a route leads to one shape. -/
theorem Leads.unique {path : Path} {shape first second : Shape} (one : Leads path shape first)
    (another : Leads path shape second) (along : AnchoredAlong path shape) : first = second := by
  induction path generalizing shape with
  | nil => exact (one.symm.trans another : first = second)
  | cons segment rest ih =>
    obtain ⟨next, step, onward⟩ := one
    obtain ⟨next', step', onward'⟩ := another
    obtain rfl := step.unique step' (holds_mono (fun _ => isAnchored.declaresOnce) along.1)
    exact ih onward onward' (along.2 next step)

variable {given kept : Fields}

/-- A field that stands in what is rebuilt is kept there as it is rebuilt. -/
theorem Rebuilds.of_get? (rebuilds : Rebuilds rule fields given kept)
    {field : FieldRule × Shape} (member : field ∈ fields) {v : Value}
    (stands : Keyed.get? field.1.name kept = some v) :
    declaredValue rule given field = some v ∧ field.1.keeps v = true := by
  obtain ⟨w, found, same⟩ := rebuilds.each field member
  rw [stands] at same
  split at same
  · next keeps =>
    obtain rfl := Option.some.inj same
    exact ⟨found, keeps⟩
  · simp at same

/-- Whatever stands in a rebuilt record stands under a declared name. -/
theorem Rebuilds.exists_field (rebuilds : Rebuilds rule fields given kept) {name : String}
    {v : Value} (stands : Keyed.get? name kept = some v) :
    ∃ field ∈ fields, field.1.name = name := by
  by_cases known : name ∈ names fields
  · obtain ⟨field, member, rfl⟩ := List.mem_map.1 known
    exact ⟨field, member, rfl⟩
  · simp [rebuilds.declared name known] at stands

/-- An object that a record rebuilds as it is has fields of the declared shapes. -/
theorem Rebuilds.field_of_get? (rebuilds : Rebuilds rule fields given given)
    (reads : Shape.readsAll rule fields = true) {name : String} {part : Value}
    (held : Keyed.get? name given = some part) :
    ∃ field ∈ fields, field.1.name = name ∧ field.2.rebuild part = some part := by
  obtain ⟨field, member, rfl⟩ := rebuilds.exists_field held
  obtain ⟨found, _⟩ := rebuilds.of_get? member held
  rw [declaredValue, (readsAll_iff.1 reads).2.2 field member] at found
  simp only [held] at found
  exact ⟨field, member, rfl, found⟩

/-- A field that a record leaves out of what it rebuilds as it is is left out by default. -/
theorem Rebuilds.keeps_initial (rebuilds : Rebuilds rule fields given given)
    (reads : Shape.readsAll rule fields = true) {field : FieldRule × Shape}
    (member : field ∈ fields) (missing : Keyed.get? field.1.name given = none) :
    field.1.keeps field.1.initial = false := by
  obtain ⟨v, found, stands⟩ := rebuilds.each field member
  rw [declaredValue, (readsAll_iff.1 reads).2.2 field member] at found
  simp only [missing] at found stands
  -- The field is completed by its default, and would be written if that were kept.
  split at found
  · obtain rfl := Option.some.inj found
    cases keeps : field.1.keeps field.1.initial with
    | false => rfl
    | true => simp [keeps] at stands
  · simp at found

/-- Changing one field of an object that a record rebuilds as it is changes that field alone. -/
theorem rebuild_modify (reads : Shape.readsAll rule fields = true)
    (rebuilds : Rebuilds rule fields given given) {field : FieldRule × Shape}
    (member : field ∈ fields) {part : Value} (held : Keyed.get? field.1.name given = some part)
    {g : Value → Value} (solid : ∀ new, field.2.rebuild (g part) = some new → new.isSolid = true) :
    (Shape.record rule fields).rebuild (.object (Keyed.modify field.1.name g given)) =
      (field.2.rebuild (g part)).map fun new =>
        .object (Keyed.modify field.1.name (fun _ => new) given) := by
  obtain ⟨forgets, distinct, unpinned⟩ := readsAll_iff.1 reads
  have changed : Keyed.get? field.1.name (Keyed.modify field.1.name g given) = some (g part) := by
    rw [Keyed.get?_modify_self, held, Option.map_some]
  cases rebuilt : field.2.rebuild (g part) with
  | none =>
    -- Whatever else is given, the field itself is refused.
    refine Option.eq_none_iff_forall_ne_some.2 fun w accepted => ?_
    obtain ⟨kept, rfl, others⟩ := (rebuild_object_iff forgets distinct).1 accepted
    obtain ⟨v, found, _⟩ := others.each field member
    simp [declaredValue, unpinned field member, changed, rebuilt] at found
  | some new =>
    refine (rebuild_object_iff forgets distinct).2 ⟨_, rfl, ?_, ?_, ?_, ?_⟩
    · intro rejects
      have known := (undeclared_eq_nil_iff unpinned).1 (rebuilds.admitted rejects)
      refine (undeclared_eq_nil_iff unpinned).2 ?_
      rwa [Keyed.map_fst_modify]
    · exact Keyed.ascending_modify _ _ rebuilds.sorted
    · intro name unknown
      have different : field.1.name ≠ name := by
        rintro rfl
        exact unknown (List.mem_map.2 ⟨field, member, rfl⟩)
      rw [Keyed.get?_modify_of_ne different, rebuilds.declared name unknown]
    · intro other another
      by_cases same : field.1.name = other.1.name
      · obtain rfl := eq_of_names distinct member another same
        refine ⟨new, by simp [declaredValue, unpinned field member, changed, rebuilt], ?_⟩
        rw [Keyed.get?_modify_self, held, if_pos (field.1.keeps_of_isSolid (solid new rebuilt))]
        rfl
      · -- Every other field is given as before, and stands as before.
        obtain ⟨v, found, stands⟩ := rebuilds.each other another
        refine ⟨v, ?_, by rw [Keyed.get?_modify_of_ne same, stands]⟩
        rwa [declaredValue, Keyed.get?_modify_of_ne same]

end Anchored

section Steady

variable {rule : RecordRule} {fields : List (FieldRule × Shape)}

theorem writesAll_iff : writesAll rule fields = true ↔
    rule.unknown ≠ .kept ∧ (names fields).Nodup ∧
      ∀ field ∈ fields, field.1.omission = .never ∧ field.1.pinned = none := by
  simp [writesAll, and_assoc]

/-- A record that writes all its fields reads them all. -/
theorem writesAll.readsAll (all : writesAll rule fields = true) :
    Shape.readsAll rule fields = true :=
  have ⟨forgets, distinct, each⟩ := writesAll_iff.1 all
  readsAll_iff.2 ⟨forgets, distinct, fun field member => (each field member).2⟩

/-- A record that writes all its fields is told by any of them. -/
theorem isSteady.isAnchored {shape : Shape} (steady : shape.isSteady = true) :
    shape.isAnchored = true := by
  cases shape with
  | record rule fields =>
    refine Bool.and_eq_true_iff.2 ⟨writesAll.readsAll steady, ?_⟩
    cases fields with
    | nil => rfl
    | cons first rest => simp [((writesAll_iff.1 steady).2.2 first List.mem_cons_self).1]
  | any | tuple shapes => simp [isSteady] at steady
  | _ => rfl

/-- What is steady everywhere is anchored everywhere. -/
theorem anchored_of_steady {shape : Shape} (steady : shape.everywhere isSteady = true) :
    shape.everywhere Shape.isAnchored = true :=
  everywhere_mono (fun _ => isSteady.isAnchored) steady

theorem isSteady.declaresOnce {shape : Shape} (steady : shape.isSteady = true) :
    shape.declaresOnce = true := by
  cases shape with
  | record rule fields => exact decide_eq_true (writesAll_iff.1 steady).2.1
  | _ => rfl

variable {given kept : Fields}

/-- A field that is always written is rebuilt from what is given, if anything is. -/
theorem Rebuilds.get? (rebuilds : Rebuilds rule fields given kept)
    (all : writesAll rule fields = true) {field : FieldRule × Shape} (member : field ∈ fields) :
    ∃ v, Keyed.get? field.1.name kept = some v ∧
      ∀ part, Keyed.get? field.1.name given = some part → field.2.rebuild part = some v := by
  obtain ⟨never, unpinned⟩ := (writesAll_iff.1 all).2.2 field member
  obtain ⟨v, found, stands⟩ := rebuilds.each field member
  refine ⟨v, by simpa [FieldRule.keeps, never] using stands, fun part held => ?_⟩
  simpa [declaredValue, unpinned, held] using found

/-- Such a field is rebuilt from what is given, or begins as it is declared. -/
theorem Rebuilds.given_or_initial (rebuilds : Rebuilds rule fields given kept)
    (all : writesAll rule fields = true) {field : FieldRule × Shape} (member : field ∈ fields) :
    ∃ v, Keyed.get? field.1.name kept = some v ∧
      ((∃ part, Keyed.get? field.1.name given = some part ∧ field.2.rebuild part = some v) ∨
        v = field.1.initial) := by
  obtain ⟨never, unpinned⟩ := (writesAll_iff.1 all).2.2 field member
  obtain ⟨v, found, stands⟩ := rebuilds.each field member
  refine ⟨v, by simpa [FieldRule.keeps, never] using stands, ?_⟩
  rw [declaredValue, unpinned] at found
  simp only at found
  split at found
  · next part held => exact .inl ⟨part, held, found⟩
  · split at found
    · exact .inr (Option.some.inj found).symm
    · simp at found

/-- A record that writes all its fields writes the declared names. -/
theorem Rebuilds.mem_names (rebuilds : Rebuilds rule fields given kept)
    (all : writesAll rule fields = true) {name : String} :
    name ∈ kept.map (·.1) ↔ name ∈ names fields := by
  constructor
  · refine fun listed => Classical.not_not.1 fun unknown => ?_
    exact Keyed.get?_eq_none_iff.1 (rebuilds.declared name unknown) listed
  · intro known
    obtain ⟨field, member, rfl⟩ := List.mem_map.1 known
    obtain ⟨v, held, _⟩ := rebuilds.get? all member
    exact List.mem_map.2 ⟨_, Keyed.mem_of_get? held, rfl⟩

/-- What a record has written stays as it is if each of its fields does. -/
theorem Rebuilds.again (rebuilds : Rebuilds rule fields given kept)
    (all : writesAll rule fields = true)
    (each : ∀ field ∈ fields, ∀ v, Keyed.get? field.1.name kept = some v →
      field.2.rebuild v = some v) : Rebuilds rule fields kept kept := by
  have written := (writesAll_iff.1 all).2.2
  refine ⟨fun _ => ?_, rebuilds.sorted, rebuilds.declared, fun field member => ?_⟩
  · exact (undeclared_eq_nil_iff fun field member => (written field member).2).2
      fun name listed => (rebuilds.mem_names all).1 listed
  · obtain ⟨v, held, _⟩ := rebuilds.get? all member
    refine ⟨v, ?_, by rw [held, FieldRule.keeps, (written field member).1, if_pos rfl]⟩
    rw [declaredValue, (written field member).2]
    simp only [held, each field member v held]

end Steady

/-- Changing one entry of a map that is rebuilt as it is changes that entry alone. -/
theorem mapM_modify_entry {f : Value → Option Value} {entries : Fields} {name : String}
    {part : Value} (fixed : ∀ entry ∈ entries, f entry.2 = some entry.2)
    (held : Keyed.get? name entries = some part) (g : Value → Value) :
    (Keyed.modify name g entries).mapM (fun entry => (f entry.2).map fun v => (entry.1, v)) =
      (f (g part)).map fun new => Keyed.modify name (fun _ => new) entries := by
  induction entries with
  | nil => simp [Keyed.get?] at held
  | cons entry rest ih =>
    obtain ⟨k, v⟩ := entry
    obtain ⟨fixedFirst, fixed⟩ := List.forall_mem_cons.1 fixed
    -- Behind the entry of the name everything is rebuilt as it is.
    by_cases same : k = name
    · obtain rfl : v = part := by simpa [Keyed.get?, same] using held
      have passed : rest.mapM (fun entry => (f entry.2).map fun v => (entry.1, v)) = some rest :=
        mapM_eq_some_iff_map.2 (List.map_congr_left fun entry member =>
          congrArg (Option.map _) (fixed entry member))
      cases changed : f (g v) <;> simp [Keyed.modify, same, List.mapM_cons, passed, changed]
    · have passed := ih fixed (by simpa [Keyed.get?, same] using held)
      cases changed : f (g part) <;>
        simp [Keyed.modify, same, List.mapM_cons, fixedFirst, passed, changed]

/-- Changing the values of a map keeps its keys as good as they are. -/
theorem all_modify (condition : String → Bool) (name : String) (g : Value → Value)
    (entries : Fields) :
    (Keyed.modify name g entries).all (fun entry => condition entry.1) =
      entries.all fun entry => condition entry.1 := by
  -- The condition is about the keys alone, and these stay.
  have onKeys : ∀ fields : Fields,
      fields.all (fun entry => condition entry.1) = (fields.map (·.1)).all condition := by
    intro fields
    rw [List.all_map]
    rfl
  rw [onKeys, onKeys, Keyed.map_fst_modify]

/--
Of a value that is rebuilt as it is, a step leads to a part that is rebuilt as it is.

If the part is changed, the whole is rebuilt with what the changed part is rebuilt as, as long as
that is never left out.
-/
theorem rebuild_modifyStep {shape : Shape} (anchored : shape.holds isAnchored = true)
    {v part : Value} {segment : Segment} (fixed : shape.rebuild v = some v)
    (found : v.step? segment = some part) :
    ∃ inner, Step segment shape inner ∧ inner.rebuild part = some part ∧
      ∀ g, (∀ new, inner.rebuild (g part) = some new → new.isSolid = true) →
        shape.rebuild (v.modifyStep segment g) =
          (inner.rebuild (g part)).map fun new => v.modifyStep segment fun _ => new := by
  induction shape using inductionOn with
  | optional shape ih =>
    -- There is a part, so the value is not null, and neither is it after the change.
    have present : ∀ v : Value, v.isNull = false →
        (Shape.optional shape).rebuild v = shape.rebuild v := by
      intro v present
      simp [rebuild, present]
    have filled : v.isNull = false := by
      cases v <;> first | rfl | (cases segment <;> simp [Value.step?] at found)
    rw [present v filled] at fixed
    obtain ⟨inner, step, rebuilt, changes⟩ := ih anchored fixed
    refine ⟨inner, .optional step, rebuilt, fun g solid => ?_⟩
    rw [present _ (by rw [Value.isNull_modifyStep, filled]), changes g solid]
  | list shape ih =>
    cases v with
    | array items =>
      cases segment with
      | index i =>
        rw [rebuild, Option.map_eq_some_iff] at fixed
        obtain ⟨results, passed, same⟩ := fixed
        obtain rfl := Value.array.inj same
        have fixed := List.map_inj_left.1 (mapM_eq_some_iff_map.1 passed)
        refine ⟨shape, .item i, fixed part (List.mem_of_getElem? found), fun g _ => ?_⟩
        simp only [Value.modifyStep, rebuild]
        rw [mapM_modify fixed found, Option.map_map]
        rfl
      | field name | key k => simp [Value.step?] at found
    | _ => simp [rebuild] at fixed
  | map decimalKeys shape ih =>
    cases v with
    | object entries =>
      rw [Value.step?_object] at found
      obtain ⟨name, named, held⟩ := Option.bind_eq_some_iff.1 found
      simp only [rebuild] at fixed
      split at fixed
      · simp at fixed
      · next admitted =>
        obtain ⟨results, passed, same⟩ := Option.map_eq_some_iff.1 fixed
        obtain rfl := Value.object.inj same
        -- All entries are rebuilt as they are if the whole map is.
        have fixed : ∀ entry ∈ results, shape.rebuild entry.2 = some entry.2 := by
          intro entry member
          obtain ⟨v, rebuilt, same⟩ := Option.map_eq_some_iff.1
            (List.map_inj_left.1 (mapM_eq_some_iff_map.1 passed) entry member)
          rw [rebuilt, ← same]
        refine ⟨shape, .entry named decimalKeys shape, fixed _ (Keyed.mem_of_get? held),
          fun g _ => ?_⟩
        simp only [Value.modifyStep, named, rebuild, all_modify]
        rw [if_neg admitted, mapM_modify_entry fixed held, Option.map_map]
        rfl
    | _ => simp [rebuild] at fixed
  | record rule fields ih =>
    have reads := isAnchored.readsAll anchored
    obtain ⟨forgets, distinct, _⟩ := readsAll_iff.1 reads
    obtain ⟨given, rfl, rebuilds⟩ := rebuilds_of_fixed forgets distinct fixed
    rw [Value.step?_object] at found
    obtain ⟨name, named, held⟩ := Option.bind_eq_some_iff.1 found
    obtain ⟨field, member, rfl, rebuilt⟩ := rebuilds.field_of_get? reads held
    refine ⟨field.2, .field member named, rebuilt, fun g solid => ?_⟩
    simp only [Value.modifyStep, named]
    exact rebuild_modify reads rebuilds member held solid
  | any | tuple shapes ih => simp [holds, isAnchored] at anchored
  | bool | string | integer low high | float | unit | choice words =>
    cases v with
    | array items => simp [rebuild, rebuildFloat, rebuildChoice, Value.isNull] at fixed
    | object fields =>
      simp [rebuild, rebuildFloat, Value.isNull, rebuildChoice] at fixed
      try split at fixed <;> simp at fixed
    | _ => cases segment <;> simp [Value.step?] at found

/--
Of a value that is rebuilt as it is, a route leads to a part that is rebuilt as it is.

If another value takes its place, the whole is rebuilt with what that value is rebuilt as, as long
as that is never left out.
-/
theorem rebuild_modifyAt {shape : Shape} {path : Path} (along : AnchoredAlong path shape)
    {v part : Value} (fixed : shape.rebuild v = some v)
    (found : v.at? path = some part) :
    ∃ inner, Leads path shape inner ∧ inner.rebuild part = some part ∧
      ∀ other, (∀ new, inner.rebuild other = some new → new.isSolid = true) →
        shape.rebuild (v.modifyAt path fun _ => other) =
          (inner.rebuild other).map fun new => v.modifyAt path fun _ => new := by
  induction path generalizing shape v with
  | nil =>
    obtain rfl := Option.some.inj found
    exact ⟨shape, rfl, fixed, fun other _ => Option.map_id'.symm⟩
  | cons segment rest ih =>
    obtain ⟨next, first, later⟩ := Option.bind_eq_some_iff.1 found
    obtain ⟨middle, step, rebuilt, changesStep⟩ := rebuild_modifyStep along.here fixed first
    obtain ⟨inner, leads, partRebuilt, changes⟩ := ih (along.2 middle step) rebuilt later
    refine ⟨inner, ⟨middle, step, leads⟩, partRebuilt, fun other solid => ?_⟩
    -- What the changed part is rebuilt as is as solid as the part that is set.
    have solidStep : ∀ new, middle.rebuild (next.modifyAt rest fun _ => other) = some new →
        new.isSolid = true := by
      intro new rebuiltNew
      rw [changes other solid] at rebuiltNew
      obtain ⟨set, rebuiltSet, rfl⟩ := Option.map_eq_some_iff.1 rebuiltNew
      exact Value.isSolid_modifyAt later (solid set rebuiltSet)
    rw [Value.modifyAt, changesStep _ solidStep, changes other solid, Option.map_map]
    refine Option.map_congr fun new _ => ?_
    -- Only the part that the step leads to is changed, so it may be named beforehand.
    exact Value.modifyStep_congr fun here held => by
      rw [Option.some.inj (held.symm.trans first)]

/-- Entries that are rebuilt one by one keep their keys. -/
theorem get?_of_mapM {f : Value → Option Value} {entries kept : Fields}
    (passed : entries.mapM (fun entry => (f entry.2).map fun v => (entry.1, v)) = some kept)
    (name : String) :
    (Keyed.get? name entries).map f = (Keyed.get? name kept).map some := by
  induction entries generalizing kept with
  | nil =>
    obtain rfl : kept = [] := by simpa using passed
    rfl
  | cons entry rest ih =>
    obtain ⟨k, v⟩ := entry
    rw [List.mapM_cons] at passed
    obtain ⟨first, rebuilt, passed⟩ := Option.bind_eq_some_iff.1 passed
    obtain ⟨others, later, same⟩ := Option.bind_eq_some_iff.1 passed
    obtain ⟨w, result, rfl⟩ := Option.map_eq_some_iff.1 rebuilt
    obtain rfl : (k, w) :: others = kept := Option.some.inj same
    by_cases here : k = name
    · simp [Keyed.get?, here, result]
    · simpa [Keyed.get?, here] using ih later

/-- Entries that are rebuilt one by one stand in the same order. -/
theorem names_of_mapM {f : Value → Option Value} {entries kept : Fields}
    (passed : entries.mapM (fun entry => (f entry.2).map fun v => (entry.1, v)) = some kept) :
    kept.map (·.1) = entries.map (·.1) := by
  induction entries generalizing kept with
  | nil =>
    obtain rfl : kept = [] := by simpa using passed
    rfl
  | cons entry rest ih =>
    rw [List.mapM_cons] at passed
    obtain ⟨first, rebuilt, passed⟩ := Option.bind_eq_some_iff.1 passed
    obtain ⟨others, later, same⟩ := Option.bind_eq_some_iff.1 passed
    obtain ⟨w, _, rfl⟩ := Option.map_eq_some_iff.1 rebuilt
    obtain rfl : (entry.1, w) :: others = kept := Option.some.inj same
    rw [List.map_cons, List.map_cons, ih later]

/-- A part that stands at a step in what is rebuilt is what the part at this step is rebuilt as. -/
theorem rebuild_step? {shape : Shape} (anchored : shape.holds isAnchored = true)
    {v w part settled : Value} {segment : Segment} (rebuilt : shape.rebuild v = some w)
    (found : v.step? segment = some part) (stands : w.step? segment = some settled) :
    ∃ inner, Step segment shape inner ∧ inner.rebuild part = some settled := by
  induction shape using inductionOn with
  | optional shape ih =>
    -- No step leads into null.
    have filled : v.isNull = false := by
      cases v <;> first | rfl | (cases segment <;> simp [Value.step?] at found)
    rw [rebuild, filled, if_neg Bool.false_ne_true] at rebuilt
    obtain ⟨inner, step, inside⟩ := ih anchored rebuilt
    exact ⟨inner, .optional step, inside⟩
  | list shape ih =>
    cases v with
    | array items =>
      cases segment with
      | index i =>
        obtain ⟨results, passed, rfl⟩ := Option.map_eq_some_iff.1 (by rwa [rebuild] at rebuilt)
        have same := getElem?_of_mapM passed i
        rw [show items[i]? = some part from found, show results[i]? = some settled from stands]
          at same
        exact ⟨shape, .item i, Option.some.inj same⟩
      | field name | key k => simp [Value.step?] at found
    | _ => simp [rebuild] at rebuilt
  | map decimalKeys shape ih =>
    cases v with
    | object entries =>
      rw [Value.step?_object] at found
      obtain ⟨name, named, held⟩ := Option.bind_eq_some_iff.1 found
      simp only [rebuild] at rebuilt
      split at rebuilt
      · simp at rebuilt
      · obtain ⟨results, passed, rfl⟩ := Option.map_eq_some_iff.1 rebuilt
        rw [Value.step?_object, named, Option.bind_some] at stands
        have same := get?_of_mapM passed name
        rw [held, stands] at same
        exact ⟨shape, .entry named decimalKeys shape, Option.some.inj same⟩
    | _ => simp [rebuild] at rebuilt
  | record rule fields ih =>
    have reads := isAnchored.readsAll anchored
    obtain ⟨forgets, distinct, unpinned⟩ := readsAll_iff.1 reads
    cases v with
    | object given =>
      obtain ⟨kept, rfl, rebuilds⟩ := (rebuild_object_iff forgets distinct).1 rebuilt
      rw [Value.step?_object] at found stands
      obtain ⟨name, named, held⟩ := Option.bind_eq_some_iff.1 found
      rw [named, Option.bind_some] at stands
      obtain ⟨field, member, rfl⟩ := rebuilds.exists_field stands
      obtain ⟨inside, _⟩ := rebuilds.of_get? member stands
      rw [declaredValue, unpinned field member] at inside
      exact ⟨field.2, .field member named, by simpa only [held] using inside⟩
    | array items =>
      -- What is given in declaration order is written by name, so no step leads into both.
      simp only [rebuild] at rebuilt
      split at rebuilt
      · obtain ⟨_, _, rfl⟩ := Option.map_eq_some_iff.1 rebuilt
        cases segment <;> simp [Value.step?, Value.ofFields] at found stands
      · simp at rebuilt
    | _ => cases segment <;> simp [Value.step?] at found
  | any | tuple shapes ih => simp [holds, isAnchored] at anchored
  | choice words =>
    -- What stands for a choice is a word, and no step leads into a word.
    have word : ∃ word, w = .string word := by
      rw [rebuild] at rebuilt
      unfold rebuildChoice at rebuilt
      split at rebuilt <;> simp at rebuilt <;> exact ⟨_, rebuilt.2.symm⟩
    obtain ⟨word, rfl⟩ := word
    cases segment <;> simp [Value.step?] at stands
  | bool | string | integer low high | float | unit =>
    cases v with
    | array items => simp [rebuild, rebuildFloat, Value.isNull] at rebuilt
    | object fields => simp [rebuild, rebuildFloat, Value.isNull] at rebuilt
    | _ => cases segment <;> simp [Value.step?] at found

/-- Parts on one route are rebuilt like the whole. -/
theorem rebuild_at? {shape : Shape} {path : Path} (along : AnchoredAlong path shape)
    {v w part settled : Value} (rebuilt : shape.rebuild v = some w)
    (found : v.at? path = some part) (stands : w.at? path = some settled) :
    ∃ inner, Leads path shape inner ∧ inner.rebuild part = some settled := by
  induction path generalizing shape v w with
  | nil =>
    obtain rfl := Option.some.inj found
    obtain rfl := Option.some.inj stands
    exact ⟨shape, rfl, rebuilt⟩
  | cons segment rest ih =>
    obtain ⟨first, held, later⟩ := Option.bind_eq_some_iff.1 found
    obtain ⟨firstSettled, heldSettled, laterSettled⟩ := Option.bind_eq_some_iff.1 stands
    obtain ⟨next, step, inside⟩ := rebuild_step? along.here rebuilt held heldSettled
    obtain ⟨inner, leads, same⟩ := ih (along.2 next step) inside later laterSettled
    exact ⟨inner, ⟨next, step, leads⟩, same⟩

/-- A sequence that is rebuilt as a sequence keeps its length. -/
theorem length_of_rebuild {shape : Shape} (anchored : shape.holds isAnchored = true)
    {items kept : List Value} (rebuilt : shape.rebuild (.array items) = some (.array kept)) :
    kept.length = items.length := by
  induction shape using inductionOn with
  | optional shape ih =>
    simp only [rebuild, Value.isNull, Bool.false_eq_true, if_false] at rebuilt
    exact ih anchored rebuilt
  | list shape =>
    obtain ⟨results, passed, same⟩ := Option.map_eq_some_iff.1 (by rwa [rebuild] at rebuilt)
    obtain rfl := Value.array.inj same
    exact (length_of_mapM passed).symm
  | record rule fields =>
    -- Even what is given as a sequence is written as an object.
    simp only [rebuild] at rebuilt
    split at rebuilt
    · obtain ⟨_, _, same⟩ := Option.map_eq_some_iff.1 rebuilt
      simp [Value.ofFields] at same
    · simp at rebuilt
  | any | tuple shapes ih => simp [holds, isAnchored] at anchored
  | _ => simp [rebuild, rebuildFloat, rebuildChoice, Value.isNull] at rebuilt

/-- A name that a rebuilt object no longer has leads nowhere in the shape. -/
theorem under?_of_gone {shape : Shape} (steady : shape.everywhere isSteady = true)
    {given kept : Fields} (rebuilt : shape.rebuild (.object given) = some (.object kept))
    {name : String} {part : Value} (held : Keyed.get? name given = some part)
    (gone : Keyed.get? name kept = none) : shape.core.under? name = none := by
  induction shape using inductionOn with
  | optional shape ih =>
    simp only [rebuild, Value.isNull, Bool.false_eq_true, if_false] at rebuilt
    exact ih (everywhere_optional.1 steady).2 rebuilt
  | list shape => simp [rebuild] at rebuilt
  | map decimalKeys shape ih =>
    -- A map keeps all its keys.
    simp only [rebuild] at rebuilt
    split at rebuilt
    · simp at rebuilt
    · obtain ⟨results, passed, same⟩ := Option.map_eq_some_iff.1 rebuilt
      obtain rfl := Value.object.inj same
      have same := get?_of_mapM passed name
      simp [held, gone] at same
  | record rule fields ih =>
    obtain ⟨forgets, distinct, _⟩ := writesAll_iff.1 (everywhere_record.1 steady).1
    obtain ⟨_, same, rebuilds⟩ := (rebuild_object_iff forgets distinct).1 rebuilt
    obtain rfl := Value.object.inj same
    refine Option.map_eq_none_iff.2 (List.find?_eq_none.2 fun field member => ?_)
    -- A declared field would have been written.
    obtain ⟨v, stands, _⟩ := rebuilds.get? (everywhere_record.1 steady).1 member
    intro named
    rw [of_decide_eq_true named, gone] at stands
    simp at stands
  | any | tuple shapes ih => simp [Shape.everywhere, isSteady] at steady
  | _ => rfl

end Shape

end Triversion
