import Triversion.Proofs.Value.WellFormed

/-!
What a change at the end of a route leaves alone.

Two routes are apart if they part at some step. Whatever happens at the end of one of them, the
other one still leads where it led, and still ends at a place that can be set.
-/

namespace Triversion

/-- The step as a field step; a key is looked up like a field. -/
def Segment.bare : Segment → Segment
  | .key k => .field k
  | segment => segment

/-- Routes that part at some step, whether it names a field or a key. -/
def Path.Apart : Path → Path → Prop
  | a :: p, b :: q => a.bare = b.bare → Apart p q
  -- A route does not part from one that goes on where it ends.
  | _, _ => False

namespace Path

theorem Apart.symm : ∀ {p q : Path}, p.Apart q → q.Apart p
  | _ :: _, _ :: _, apart => fun same => (apart same.symm).symm

/-- Routes are apart exactly if they are so behind a common beginning. -/
theorem apart_append_iff (path : Path) {p q : Path} :
    Apart (path ++ p) (path ++ q) ↔ p.Apart q := by
  induction path with
  | nil => rfl
  | cons segment rest ih => simp [Apart, ih]

/-- A route that passes through the end of another one, where fields and keys are alike. -/
def Covers (path other : Path) : Prop :=
  path.map Segment.bare <+: other.map Segment.bare

/-- Every route passes through the root. -/
theorem nil_covers (path : Path) : Covers [] path :=
  List.nil_prefix

/-- Behind a common first step a route covers another one as it did without the step. -/
theorem covers_cons_iff {a b : Segment} {p q : Path} :
    Covers (a :: p) (b :: q) ↔ a.bare = b.bare ∧ p.Covers q := by
  simp [Covers, List.cons_prefix_cons]

/-- Routes are apart if they part at a step behind a common beginning. -/
theorem apart_of_bare_ne (path : Path) {a b : Segment} (different : a.bare ≠ b.bare)
    (p q : Path) : Apart (path ++ a :: p) (path ++ b :: q) :=
  (apart_append_iff path).2 fun same => absurd same different

end Path

namespace Value

/-- A step could set a part of the value. -/
def Admits : Segment → Value → Prop
  | .index i, .array items => i < items.length
  | .field _, .object _ => True
  | .key _, .object _ => True
  | _, _ => False

/-- A route leads to a part, or to a place in an object where one could be set. -/
def HasPlace : Path → Value → Prop
  | [], _ => True
  | [segment], v => v.Admits segment
  | segment :: path, v => ∃ part, v.step? segment = some part ∧ part.HasPlace path

/-- All that is apart from a route is the same in both values. -/
def SameBeside (path : Path) (before after : Value) : Prop :=
  ∀ other, path.Apart other →
    after.at? other = before.at? other ∧ (before.HasPlace other → after.HasPlace other)

/-- Steps that differ at most in their kind look up the same name. -/
theorem name?_of_bare_eq {a b : Segment} (same : a.bare = b.bare) : a.name? = b.name? := by
  cases a <;> cases b <;> simp_all [Segment.bare, Segment.name?]

/-- Steps that do not lead to the same place look up different names. -/
theorem ne_of_bare_ne {a b : Segment} (different : a.bare ≠ b.bare) {name other : String}
    (named : a.name? = some name) (namedOther : b.name? = some other) : name ≠ other := by
  intro same
  subst same
  cases a <;> cases b <;> simp_all [Segment.bare, Segment.name?]

/-- In an object a step looks up its name. -/
theorem step?_object (segment : Segment) (fields : Fields) :
    (Value.object fields).step? segment =
      segment.name?.bind fun name => Keyed.get? name fields := by
  cases segment <;> rfl

section Steps

variable {a b : Segment} {f : Value → Value} {new v : Value}

/-- What is done under the name of one step is not seen from a different step. -/
theorem step?_object_of_ne (different : a.bare ≠ b.bare) {fields : Fields}
    {change : String → Fields}
    (others : ∀ name other, name ≠ other →
      Keyed.get? other (change name) = Keyed.get? other fields) :
    (match a.name? with
      | some name => Value.object (change name)
      | none => Value.object fields).step? b = (Value.object fields).step? b := by
  -- A position looks up nothing in an object, so two names are compared.
  cases named : a.name? with
  | none => rfl
  | some name =>
    simp only [step?_object]
    refine Option.bind_congr fun other namedOther => ?_
    exact others name other (ne_of_bare_ne different named namedOther)

theorem step?_modifyStep_self (same : a.bare = b.bare) :
    (modifyStep a f v).step? b = (v.step? b).map f := by
  cases v with
  | array items =>
    -- In a sequence only positions lead anywhere, and these are the same.
    cases a with
    | index i =>
      cases b with
      | index j =>
        obtain rfl := Segment.index.inj same
        exact List.getElem?_modify_eq f i items
      | field name => contradiction
      | key k => contradiction
    | field name => cases b with
      | index j => contradiction
      | _ => rfl
    | key k => cases b with
      | index j => contradiction
      | _ => rfl
  | object fields =>
    rw [modifyStep, name?_of_bare_eq same]
    cases named : b.name? with
    | none => simp only [step?_object, named, Option.bind_none, Option.map_none]
    | some name =>
      simp only [step?_object, named, Option.bind_some]
      exact Keyed.get?_modify_self name f fields
  | _ => cases b <;> rfl

theorem step?_modifyStep_of_ne (different : a.bare ≠ b.bare) :
    (modifyStep a f v).step? b = v.step? b := by
  cases v with
  | array items =>
    cases a with
    | index i =>
      cases b with
      | index j =>
        have apart : i ≠ j := fun same => different (congrArg Segment.index same)
        exact List.getElem?_modify_ne f items apart
      | _ => rfl
    | _ => rfl
  | object fields =>
    exact step?_object_of_ne different fun _ _ apart => Keyed.get?_modify_of_ne apart f fields
  | _ => rfl

theorem step?_setStep_self (place : v.Admits a) : (setStep a new v).step? a = some new := by
  cases v with
  | array items =>
    cases a with
    | index i => exact List.getElem?_set_self place
    | field name => contradiction
    | key k => contradiction
  | object fields =>
    cases a with
    | index i => contradiction
    | field name => exact Keyed.get?_put_self name new fields
    | key k => exact Keyed.get?_put_self k new fields
  | _ => cases a <;> contradiction

theorem step?_setStep_of_ne (different : a.bare ≠ b.bare) :
    (setStep a new v).step? b = v.step? b := by
  cases v with
  | array items =>
    cases a with
    | index i =>
      cases b with
      | index j =>
        have apart : i ≠ j := fun same => different (congrArg Segment.index same)
        exact List.getElem?_set_ne apart
      | _ => rfl
    | _ => rfl
  | object fields =>
    exact step?_object_of_ne different fun _ _ apart => Keyed.get?_put_of_ne apart new fields
  | _ => rfl

theorem step?_eraseStep_of_ne (different : a.bare ≠ b.bare) :
    (eraseStep a v).step? b = v.step? b := by
  cases v with
  | object fields =>
    exact step?_object_of_ne different fun _ _ apart => Keyed.get?_erase_of_ne apart fields
  | _ => rfl

/-- Whether an object admits a step does not depend on its fields. -/
theorem admits_object {fields : Fields} (place : (Value.object fields).Admits b)
    (others : Fields) : (Value.object others).Admits b := by
  cases b <;> exact place

theorem admits_modifyStep (place : v.Admits b) : (modifyStep a f v).Admits b := by
  cases v with
  | array items =>
    cases a with
    | index i =>
      cases b with
      | index j =>
        -- A position is in a sequence as long as the sequence keeps its length.
        show j < (items.modify i f).length
        rw [List.length_modify]
        exact place
      | _ => exact place
    | _ => exact place
  | object fields =>
    rw [modifyStep]
    split
    · exact admits_object place _
    · exact place
  | _ => exact place

theorem admits_setStep (place : v.Admits b) : (setStep a new v).Admits b := by
  cases v with
  | array items =>
    cases a with
    | index i =>
      cases b with
      | index j =>
        show j < (items.set i new).length
        rw [List.length_set]
        exact place
      | _ => exact place
    | _ => exact place
  | object fields =>
    rw [setStep]
    split
    · exact admits_object place _
    · exact place
  | _ => exact place

theorem admits_eraseStep (place : v.Admits b) : (eraseStep a v).Admits b := by
  cases v with
  | object fields =>
    rw [eraseStep]
    split
    · exact admits_object place _
    · exact place
  | _ => exact place

end Steps

namespace SameBeside

variable {path : Path} {first second third : Value}

theorem refl (path : Path) (v : Value) : SameBeside path v v :=
  fun _ _ => ⟨rfl, id⟩

theorem trans (before : SameBeside path first second) (after : SameBeside path second third) :
    SameBeside path first third := by
  intro other apart
  obtain ⟨readsBefore, placeBefore⟩ := before other apart
  obtain ⟨readsAfter, placeAfter⟩ := after other apart
  exact ⟨readsAfter.trans readsBefore, placeAfter ∘ placeBefore⟩

/-- A change behind one step of a route leaves alone what the same change leaves alone there. -/
theorem step (segment : Segment) {f : Value → Value}
    (within : ∀ part, SameBeside path part (f part)) (v : Value) :
    SameBeside (segment :: path) v (modifyStep segment f v) := by
  intro other apart
  match other with
  | [] => exact absurd apart (by simp [Path.Apart])
  | next :: rest =>
    by_cases same : segment.bare = next.bare
    · -- Behind the common step the routes part later, so the part itself has to be looked at.
      have later : path.Apart rest := apart same
      constructor
      · simp only [at?, step?_modifyStep_self same, Option.bind_map]
        cases v.step? next with
        | none => rfl
        | some part => exact (within part rest later).1
      · match rest with
        | [] => exact absurd later (by cases path <;> simp [Path.Apart])
        | _ :: _ =>
          intro leads
          obtain ⟨part, found, place⟩ := leads
          exact ⟨f part, by rw [step?_modifyStep_self same, found, Option.map_some],
            (within part _ later).2 place⟩
    · -- A different step leads to the part it led to before.
      constructor
      · simp only [at?, step?_modifyStep_of_ne same]
      · match rest with
        | [] => exact admits_modifyStep
        | _ :: _ =>
          intro leads
          obtain ⟨part, found, place⟩ := leads
          exact ⟨part, by rw [step?_modifyStep_of_ne same, found], place⟩

/-- A change of one step leaves alone what lies behind other steps. -/
theorem single {segment : Segment} {v after : Value}
    (reads : ∀ other, segment.bare ≠ other.bare → after.step? other = v.step? other)
    (places : ∀ other, v.Admits other → after.Admits other) : SameBeside [segment] v after := by
  intro other apart
  match other with
  | [] => exact absurd apart (by simp [Path.Apart])
  | next :: rest =>
    -- Nothing comes behind the one step, so the other route must leave at it.
    have different : segment.bare ≠ next.bare := by
      intro same
      exact absurd (apart same) (by simp [Path.Apart])
    constructor
    · simp only [at?, reads next different]
    · match rest with
      | [] => exact places next
      | _ :: _ =>
        intro leads
        obtain ⟨part, found, place⟩ := leads
        exact ⟨part, by rw [reads next different, found], place⟩

/-- Setting the end of a route leaves alone what is apart from it. -/
theorem setAt (path : Path) (new v : Value) : SameBeside path v (Value.setAt path new v) := by
  induction path generalizing v with
  | nil => exact fun other apart => absurd apart (by simp [Path.Apart])
  | cons segment rest ih =>
    cases rest with
    | nil => exact single (fun _ => step?_setStep_of_ne) fun _ => admits_setStep
    | cons next rest => exact step segment ih v

/-- Removing the end of a route leaves alone what is apart from it. -/
theorem eraseAt (path : Path) (v : Value) : SameBeside path v (Value.eraseAt path v) := by
  induction path generalizing v with
  | nil => exact refl _ _
  | cons segment rest ih =>
    cases rest with
    | nil => exact single (fun _ => step?_eraseStep_of_ne) fun _ => admits_eraseStep
    | cons next rest => exact step segment ih v

/-- Changing the end of a route leaves alone what is apart from it. -/
theorem modifyAt (path : Path) (f : Value → Value) (v : Value) :
    SameBeside path v (Value.modifyAt path f v) := by
  -- The part behind each step is changed in the same way, along a shorter route.
  induction path generalizing v with
  | nil => exact fun other apart => absurd apart (by simp [Path.Apart])
  | cons segment rest ih => exact step segment ih v

end SameBeside

/-- A route goes on from where an earlier one leads. -/
theorem at?_append (before after : Path) (v : Value) :
    v.at? (before ++ after) = (v.at? before).bind (at? after) := by
  induction before generalizing v with
  | nil => rfl
  | cons segment rest ih =>
    simp only [List.cons_append, at?, Option.bind_assoc]
    exact Option.bind_congr fun part _ => ih part

/-- A route that is one step longer leads to what the step leads to. -/
theorem at?_concat {path : Path} {v part : Value} (found : v.at? path = some part)
    (segment : Segment) : v.at? (path ++ [segment]) = part.step? segment := by
  rw [at?_append, found, Option.bind_some]
  simp only [at?, Option.bind_fun_some]

/-- Steps that differ at most in their kind lead to the same part. -/
theorem step?_of_bare_eq {a b : Segment} (same : a.bare = b.bare) (v : Value) :
    v.step? a = v.step? b := by
  cases a <;> cases b <;> simp_all [Segment.bare] <;> cases v <;> rfl

/-- Routes that differ at most in fields and keys lead to the same part. -/
theorem at?_of_bare_eq {path other : Path}
    (same : path.map Segment.bare = other.map Segment.bare) (v : Value) :
    v.at? path = v.at? other := by
  induction path generalizing other v with
  | nil =>
    obtain rfl : other = [] := by simpa using same.symm
    rfl
  | cons segment rest ih =>
    obtain ⟨next, later, rfl⟩ : ∃ next later, other = next :: later := by
      cases other with
      | nil => simp at same
      | cons next later => exact ⟨next, later, rfl⟩
    obtain ⟨first, others⟩ := List.cons.inj same
    rw [at?, at?, step?_of_bare_eq first]
    exact Option.bind_congr fun part _ => ih others part

/-- A step leads from a blank value to the blank of a part. -/
theorem step?_of_blank {segment : Segment} {v part : Value}
    (found : v.blank.step? segment = some part) :
    ∃ old, v.step? segment = some old ∧ part = old.blank := by
  cases v with
  | array items =>
    -- The blank of a sequence has no items.
    cases segment <;> simp [blank, step?] at found
  | object fields =>
    rw [blank, blankFields_eq, step?_object] at found
    obtain ⟨name, named, held⟩ := Option.bind_eq_some_iff.1 found
    rw [Keyed.get?_map (fun _ => blank)] at held
    obtain ⟨old, before, rfl⟩ := Option.map_eq_some_iff.1 held
    exact ⟨old, by rw [step?_object, named, Option.bind_some, before], rfl⟩
  | _ => cases segment <;> simp [blank, step?] at found

/-- A route leads from a blank value to the blank of a part. -/
theorem at?_of_blank {path : Path} {v part : Value} (found : v.blank.at? path = some part) :
    ∃ old, v.at? path = some old ∧ part = old.blank := by
  induction path generalizing v with
  | nil => exact ⟨v, rfl, (Option.some.inj found).symm⟩
  | cons segment rest ih =>
    obtain ⟨next, first, later⟩ := Option.bind_eq_some_iff.1 found
    obtain ⟨before, held, rfl⟩ := step?_of_blank first
    obtain ⟨old, leads, same⟩ := ih later
    exact ⟨old, by rw [at?, held, Option.bind_some, leads], same⟩

/-- An object carries no information exactly if none of its fields does. -/
theorem isBlank_object_iff {fields : Fields} :
    (Value.object fields).isBlank = true ↔ ∀ entry ∈ fields, entry.2.isBlank = true := by
  rw [isBlank]
  induction fields with
  | nil => simp [allBlank]
  | cons entry rest ih => rw [allBlank, Bool.and_eq_true, ih, List.forall_mem_cons]

/-- A part of what carries no information carries none. -/
theorem isBlank_of_step? {segment : Segment} {v part : Value} (blank : v.isBlank = true)
    (found : v.step? segment = some part) : part.isBlank = true := by
  cases v with
  | array items =>
    -- A sequence with items would carry information.
    rw [isBlank, List.isEmpty_iff] at blank
    cases segment <;> simp [blank, step?] at found
  | object fields =>
    rw [step?_object] at found
    obtain ⟨name, _, held⟩ := Option.bind_eq_some_iff.1 found
    exact isBlank_object_iff.1 blank _ (Keyed.mem_of_get? held)
  | _ => cases segment <;> simp [step?] at found

/-- All that is behind a route of what carries no information carries none. -/
theorem isBlank_of_at? {path : Path} {v part : Value} (blank : v.isBlank = true)
    (found : v.at? path = some part) : part.isBlank = true := by
  induction path generalizing v with
  | nil => exact Option.some.inj found ▸ blank
  | cons segment rest ih =>
    obtain ⟨next, first, later⟩ := Option.bind_eq_some_iff.1 found
    exact ih (isBlank_of_step? blank first) later

/-- A step that leads to a part could set it. -/
theorem admits_of_step? {segment : Segment} {v part : Value} (found : v.step? segment = some part) :
    v.Admits segment := by
  -- A part of a sequence is at a position before its end, a part of an object is named.
  cases segment with
  | index i =>
    cases v with
    | array items => exact (List.getElem?_eq_some_iff.1 found).1
    | _ => simp [step?] at found
  | field name => cases v <;> simp_all [Admits, step?]
  | key k => cases v <;> simp_all [Admits, step?]

/-- A route that leads to a part ends at a place. -/
theorem hasPlace_of_at? {path : Path} {v part : Value} (found : v.at? path = some part) :
    v.HasPlace path := by
  -- Each step leads to a part, and the last one could set it.
  induction path generalizing v with
  | nil => trivial
  | cons segment rest ih =>
    obtain ⟨next, first, later⟩ := Option.bind_eq_some_iff.1 found
    cases rest with
    | nil => exact admits_of_step? first
    | cons _ _ => exact ⟨next, first, ih later⟩

/-- What is set at a place is found there. -/
theorem at?_setAt {path : Path} {v : Value} (place : v.HasPlace path) (new : Value) :
    (Value.setAt path new v).at? path = some new := by
  -- The parts on the way exist, and the last step could be taken.
  induction path generalizing v with
  | nil => rfl
  | cons segment rest ih =>
    cases rest with
    | nil => simp only [Value.setAt, at?, step?_setStep_self place, Option.bind_some]
    | cons next rest =>
      obtain ⟨part, found, place⟩ := place
      simp only [Value.setAt, at?, step?_modifyStep_self rfl, found, Option.map_some,
        Option.bind_some]
      exact ih place

/-- What is changed at the end of a route is found there. -/
theorem at?_modifyAt (path : Path) (f : Value → Value) (v : Value) :
    (Value.modifyAt path f v).at? path = (v.at? path).map f := by
  -- If the route breaks off, it does so in both values.
  induction path generalizing v with
  | nil => rfl
  | cons segment rest ih =>
    simp only [Value.modifyAt, at?, step?_modifyStep_self rfl, Option.bind_map]
    cases v.step? segment with
    | none => rfl
    | some part => exact ih part

/-- Setting a place leaves it a place. -/
theorem hasPlace_setAt {path : Path} {v : Value} (place : v.HasPlace path) (new : Value) :
    (Value.setAt path new v).HasPlace path :=
  hasPlace_of_at? (at?_setAt place new)

/-- Removing an entry leaves its place. -/
theorem hasPlace_eraseAt {path : Path} {v : Value} (place : v.HasPlace path) :
    (Value.eraseAt path v).HasPlace path := by
  induction path generalizing v with
  | nil => trivial
  | cons segment rest ih =>
    cases rest with
    | nil => exact admits_eraseStep place
    | cons next rest =>
      -- The part on the way is changed, but it is still there.
      obtain ⟨part, found, place⟩ := place
      refine ⟨part.eraseAt (next :: rest), ?_, ih place⟩
      change (modifyStep segment (Value.eraseAt (next :: rest)) v).step? segment = _
      rw [step?_modifyStep_self rfl, found, Option.map_some]

/-- Two changes at the end of one step are one change. -/
theorem modifyStep_modifyStep (segment : Segment) (f g : Value → Value) (v : Value) :
    modifyStep segment g (modifyStep segment f v) = modifyStep segment (g ∘ f) v := by
  cases v with
  | array items =>
    cases segment with
    | index i => simp only [modifyStep, List.modify_modify_eq]
    | _ => rfl
  | object fields =>
    cases named : segment.name? with
    | none => simp only [modifyStep, named]
    | some name => simp only [modifyStep, named, Keyed.modify_modify]
  | _ => rfl

/-- Two changes at the end of one route are one change. -/
theorem modifyAt_modifyAt (path : Path) (f g : Value → Value) (v : Value) :
    (v.modifyAt path f).modifyAt path g = v.modifyAt path (g ∘ f) := by
  -- Behind the first step both changes go along the rest of the route.
  induction path generalizing v with
  | nil => rfl
  | cons segment rest ih =>
    simp only [modifyAt, modifyStep_modifyStep]
    congr 1
    exact funext fun part => ih part

/-- Changes behind one step that do the same to the part there do the same to the whole. -/
theorem modifyStep_congr {segment : Segment} {f g : Value → Value} {v : Value}
    (same : ∀ part, v.step? segment = some part → f part = g part) :
    modifyStep segment f v = modifyStep segment g v := by
  cases v with
  | array items =>
    cases segment with
    | index i =>
      rw [modifyStep, modifyStep]
      congr 1
      refine List.ext_getElem? fun j => ?_
      -- The part is changed at its own position alone, if there is such a position.
      by_cases here : i = j
      · subst here
        rw [List.getElem?_modify_eq, List.getElem?_modify_eq]
        exact Option.map_congr same
      · rw [List.getElem?_modify_ne _ _ here, List.getElem?_modify_ne _ _ here]
    | _ => rfl
  | object fields =>
    rw [modifyStep, modifyStep]
    cases named : segment.name? with
    | none => rfl
    | some name =>
      refine congrArg Value.object (Keyed.modify_congr fun part found => same part ?_)
      rw [step?_object, named, Option.bind_some, found]
  | _ => rfl

/-- A change behind one step that keeps every value keeps the whole. -/
@[simp] theorem modifyStep_id (segment : Segment) (v : Value) : modifyStep segment id v = v := by
  cases v with
  | array items => cases segment <;> simp [modifyStep]
  | object fields => cases named : segment.name? <;> simp [modifyStep, named]
  | _ => rfl

/-- A change behind one step makes nothing null, and nothing that was null anything else. -/
@[simp] theorem isNull_modifyStep (segment : Segment) (f : Value → Value) (v : Value) :
    (modifyStep segment f v).isNull = v.isNull := by
  cases v with
  | array items => cases segment <;> rfl
  | object fields => cases named : segment.name? <;> simp [modifyStep, named, isNull]
  | _ => rfl

/-- A change that keeps the part at a route keeps the whole. -/
theorem modifyAt_eq_self {path : Path} {f : Value → Value} {v : Value}
    (fixed : ∀ part, v.at? path = some part → f part = part) : v.modifyAt path f = v := by
  induction path generalizing v with
  | nil => exact fixed v rfl
  | cons segment rest ih =>
    have keeps : ∀ part, v.step? segment = some part → part.modifyAt rest f = id part :=
      fun part found => ih fun inner leads => fixed inner (by
        rw [at?, found, Option.bind_some, leads])
    rw [modifyAt, modifyStep_congr keeps, modifyStep_id]

/-- Changing the part that a step leads to sets it. -/
theorem modifyStep_eq_setStep {segment : Segment} {f : Value → Value} {v part : Value}
    (formed : v.WellFormed) (found : v.step? segment = some part) :
    modifyStep segment f v = setStep segment (f part) v := by
  cases v with
  | array items =>
    cases segment with
    | index i =>
      have here : items[i]? = some part := found
      rw [modifyStep, setStep, List.modify_eq_set, here, Option.getD_some]
    | _ => rfl
  | object fields =>
    rw [modifyStep, setStep]
    cases named : segment.name? with
    | none => rfl
    | some name =>
      rw [step?_object, named, Option.bind_some] at found
      exact congrArg Value.object
        (Keyed.modify_eq_put f (wellFormed_object.1 formed).1 found)
  | _ => rfl

/-- Changing the part that a route leads to sets it. -/
theorem modifyAt_eq_setAt {path : Path} {f : Value → Value} {v part : Value}
    (formed : v.WellFormed) (found : v.at? path = some part) :
    v.modifyAt path f = setAt path (f part) v := by
  induction path generalizing v with
  | nil =>
    obtain rfl := Option.some.inj found
    rfl
  | cons segment rest ih =>
    obtain ⟨next, first, later⟩ := Option.bind_eq_some_iff.1 found
    cases rest with
    | nil =>
      -- The last step sets where the steps before it change.
      obtain rfl := Option.some.inj later
      exact modifyStep_eq_setStep formed first
    | cons second others =>
      refine modifyStep_congr fun other leads => ?_
      obtain rfl := Option.some.inj (first.symm.trans leads)
      exact ih (formed.step? first) later

end Value

end Triversion
