import Triversion.Proofs.Policy.Breaches
import Triversion.Proofs.Policy.Roles
import Triversion.Proofs.Value.At

/-!
The policy check where no role is declared.

All that is left to check then is that the bookkeeping lists of every struct name fields of the
struct, and that no field is listed as null and set. Where the struct stands makes no difference, so
what a check says of a part can be carried from one place to another.
-/

namespace Triversion

/-- A step that does not lead into a bookkeeping list. -/
def Segment.Plain (segment : Segment) : Prop :=
  ∀ name, segment.name? = some name → isBookkeeping name = false

/-- The names that a value gives when it is read as a bookkeeping list. -/
def Value.texts : Value → List String
  | .array items => items.filterMap Value.string?
  | _ => []

/-- A list names what the value under its name gives, and nothing if there is none. -/
theorem Value.listedNames_eq (fields : Fields) (list : String) :
    Value.listedNames fields list = ((Keyed.get? list fields).map Value.texts).getD [] := by
  rw [Value.listedNames]
  cases Keyed.get? list fields with
  | none => rfl
  | some v => cases v <;> rfl

namespace Policy

/-- A struct inside a value, behind items and behind fields that are no bookkeeping lists. -/
inductive StructIn : Fields → Value → Prop where
  | here {fields : Fields} : StructIn fields (.object fields)
  | item {fields : Fields} {items : List Value} {v : Value} (member : v ∈ items)
    (inside : StructIn fields v) : StructIn fields (.array items)
  | field {fields outer : Fields} {name : String} {v : Value} (member : (name, v) ∈ outer)
    (ordinary : isBookkeeping name = false) (inside : StructIn fields v) :
    StructIn fields (.object outer)

/-- There is no struct inside a list of names. -/
theorem not_structIn_strings {fields : Fields} {names : List String} :
    ¬ StructIn fields (.strings names) := by
  intro inside
  cases inside with
  | item member inside =>
    obtain ⟨text, _, rfl⟩ := List.mem_map.1 member
    cases inside

/-- The lists of a struct name its fields, and the fields listed as null carry no information. -/
structure Lawful (fields : Fields) : Prop where
  listed : ∀ list ∈ bookkeepingLists, ∀ name ∈ Value.listedNames fields list,
    Keyed.has name fields = true ∧ isBookkeeping name = false
  nulls : ∀ name v, (name, v) ∈ fields → name ∈ Value.listedNames fields nullFields →
    v.isBlank = true

/-- All structs inside a value are lawful. -/
def Passes (v : Value) : Prop :=
  ∀ fields, StructIn fields v → Lawful fields

/-- A route that does not begin with a bookkeeping list of the whole value. -/
def Open (path : Path) : Prop :=
  ∀ list ∈ bookkeepingLists, ¬[Segment.field list] <+: path.withoutPositions

section Initial

variable {version : Version} {path : Path} {fields : Fields} {name : String} {v : Value}

/-- By default a field outside the lists of the whole value is ordinary. -/
theorem roleAt_initial (isOpen : Open path) : initial.roleAt path = .ordinary := by
  show (declareAll (history [])).roleAt path = .ordinary
  refine roleAt_declareAll.2 (.inr ⟨rfl, fun place begins => ?_⟩)
  -- Something is declared for the two lists and for nothing else.
  have apart : ∀ list ∈ bookkeepingLists, (Path.root.field list).withoutPositions ≠ place := by
    rintro list isList rfl
    exact isOpen list isList begins
  simp [declaredFor, history, apart nullFields nullFields_mem,
    apart forceSendFields forceSendFields_mem]

theorem Open.root : Open Path.root := by
  simp [Open, Path.root, Path.withoutPositions]

theorem Open.index (isOpen : Open path) (i : Nat) : Open (path.index i) := by
  simpa [Open, Path.index, Path.withoutPositions, Segment.isIndex] using isOpen

/-- Only a field step can lead into a list of the whole value, and it does so by its name. -/
theorem Open.field (isOpen : Open path) (ordinary : isBookkeeping name = false) :
    Open (path.field name) := by
  intro list isList begins
  rw [Path.field, Path.withoutPositions_append] at begins
  cases steps : path.withoutPositions with
  | nil =>
    -- The step is the first one, and its name is no list.
    rw [steps] at begins
    have same : list = name := by
      simpa [Path.withoutPositions, Segment.isIndex, List.prefix_cons_iff] using begins
    exact absurd (isBookkeeping_iff.2 (same ▸ isList)) (by simp [ordinary])
  | cons first rest =>
    rw [steps, List.cons_append, List.cons_prefix_cons] at begins
    exact isOpen list isList (by simp [steps, begins.1])

/-- Where no role is declared, a struct keeps the rules exactly if it is lawful. -/
theorem keeps_initial_iff (isOpen : Open path) : initial.Keeps path fields ↔ Lawful fields := by
  constructor
  · intro keeps
    -- A field that is listed is no list itself, so its role is the default one.
    refine ⟨keeps.listed, fun name v member inside => ?_⟩
    have ordinary := (keeps.listed nullFields nullFields_mem name inside).2
    exact keeps.nulls name v member (by simp [roleAt_initial (isOpen.field ordinary)]) inside
  · rintro ⟨listed, nulls⟩
    -- The rules about special roles ask nothing, as no field has one.
    refine ⟨listed, fun name v _ ordinary role => ?_, fun name v _ role _ list isList inside => ?_,
      fun name v member _ => nulls name v member⟩
    · simp [roleAt_initial (isOpen.field ordinary)] at role
    · simp [roleAt_initial (isOpen.field (listed list isList name inside).2)] at role

/-- Whatever the policy, a struct that is looked at is inside the value. -/
theorem StructAt.structIn {policy : Policy} {place : Path}
    (inside : policy.StructAt path v place fields) : StructIn fields v := by
  induction inside with
  | here => exact .here
  | item found _ ih => exact .item (List.mem_of_getElem? found) ih
  | field member ordinary _ _ ih => exact .field member ordinary ih

/-- By default every struct inside a value is looked at. -/
theorem StructIn.exists_structAt (inside : StructIn fields v) (isOpen : Open path) :
    ∃ place, initial.StructAt path v place fields := by
  induction inside generalizing path with
  | here => exact ⟨path, .here⟩
  | item member _ ih =>
    obtain ⟨i, found⟩ := List.mem_iff_getElem?.1 member
    obtain ⟨place, there⟩ := ih (isOpen.index i)
    exact ⟨place, .item found there⟩
  | field member ordinary _ ih =>
    have onward := isOpen.field ordinary
    obtain ⟨place, there⟩ := ih onward
    exact ⟨place, .field member ordinary (by simp [roleAt_initial onward]) there⟩

/-- What is looked at from an open route on has an open route as well. -/
theorem StructAt.isOpen {place : Path} (inside : initial.StructAt path v place fields)
    (isOpen : Open path) : Open place := by
  induction inside with
  | here => exact isOpen
  | item _ _ ih => exact ih (isOpen.index _)
  | field _ ordinary _ _ ih => exact ih (isOpen.field ordinary)

/-- By default the check of a value does not depend on where it stands. -/
theorem checkIn_initial_iff (isOpen : Open path) :
    initial.checkIn version path v = .ok () ↔ Passes v := by
  rw [checkIn_eq_ok_iff]
  constructor
  · intro keeps fields inside
    obtain ⟨place, there⟩ := inside.exists_structAt isOpen
    exact (keeps_initial_iff (there.isOpen isOpen)).1 (keeps place fields there)
  · -- Where the struct is found matters only for its role, which is the same everywhere.
    intro passes place fields there
    exact (keeps_initial_iff (there.isOpen isOpen)).2 (passes fields there.structIn)

/-- By default a representation passes exactly if what is written of it does. -/
theorem check_initial_iff {α : Type} {codec : Codec α} {x : α} (written : codec.encode x = .ok v) :
    initial.check version codec x = .ok () ↔ Passes v := by
  rw [check, Codec.write, written]
  exact checkIn_initial_iff Open.root

end Initial

section Parts

variable {fields : Fields} {name : String} {v part : Value}

/-- A struct passes if it is lawful and its fields pass, save for its lists. -/
theorem passes_object_iff (distinct : (fields.map (·.1)).Nodup) :
    Passes (.object fields) ↔ Lawful fields ∧
      ∀ name v, isBookkeeping name = false → Keyed.get? name fields = some v → Passes v := by
  constructor
  · exact fun passes => ⟨passes fields .here, fun name v ordinary found inner inside =>
      passes inner (.field (Keyed.mem_of_get? found) ordinary inside)⟩
  · rintro ⟨lawful, each⟩ inner inside
    cases inside with
    | here => exact lawful
    | field member ordinary inside =>
      exact each _ _ ordinary (Keyed.get?_of_mem distinct member) inner inside

/-- A value passes if all parts outside its lists do, and it is lawful as far as it is a struct. -/
theorem passes_iff (formed : v.WellFormed) :
    Passes v ↔ (∀ fields, v = .object fields → Lawful fields) ∧
      ∀ segment part, segment.Plain → v.step? segment = some part → Passes part := by
  cases v with
  | array items =>
    refine ⟨fun passes => ⟨by simp, fun segment part _ found => ?_⟩, fun ⟨_, each⟩ => ?_⟩
    · cases segment with
      | index i =>
        exact fun inner inside => passes inner (.item (List.mem_of_getElem? found) inside)
      | _ => simp [Value.step?] at found
    · intro inner inside
      cases inside with
      | item member inside =>
        obtain ⟨i, found⟩ := List.mem_iff_getElem?.1 member
        exact each (.index i) _ (by simp [Segment.Plain, Segment.name?]) found inner inside
  | object fields =>
    rw [passes_object_iff formed.distinct]
    refine and_congr (by simp) ⟨fun each segment part plain found => ?_, fun each name => ?_⟩
    · rw [Value.step?_object] at found
      obtain ⟨name, named, held⟩ := Option.bind_eq_some_iff.1 found
      exact each name part (plain name named) held
    · exact fun part ordinary held => each (.field name) part
        (fun _ named => Option.some.inj named ▸ ordinary) held
  | _ =>
    refine iff_of_true (fun _ inside => by cases inside) ⟨by simp, fun segment part _ found => ?_⟩
    cases segment <;> simp [Value.step?] at found

/-- A struct without bookkeeping lists is lawful. -/
theorem lawful_of_unlisted (unlisted : ∀ entry ∈ fields, isBookkeeping entry.1 = false) :
    Lawful fields := by
  have none : ∀ list ∈ bookkeepingLists, Value.listedNames fields list = [] := by
    intro list isList
    have absent : Keyed.get? list fields = none := by
      refine Keyed.get?_eq_none_iff.2 fun listed => ?_
      obtain ⟨entry, member, rfl⟩ := List.mem_map.1 listed
      exact absurd (isBookkeeping_iff.2 isList) (by simp [unlisted entry member])
    rw [Value.listedNames_eq, absent]
    rfl
  refine ⟨fun list isList name inside => ?_, fun name v _ inside => ?_⟩
  · simp [none list isList] at inside
  · simp [none nullFields nullFields_mem] at inside

/-- Two values that look the same to the struct that they are in. -/
structure Alike (v w : Value) : Prop where
  blank : v.isBlank = w.isBlank
  texts : v.texts = w.texts
  string : v.string? = w.string?

/-- Whether a struct is lawful depends on its names and lists and on what is blank in it. -/
theorem Lawful.congr {others : Fields}
    (blanks : (fields.map fun entry => (entry.1, entry.2.isBlank)) =
      others.map fun entry => (entry.1, entry.2.isBlank))
    (listed : ∀ list, Value.listedNames fields list = Value.listedNames others list) :
    Lawful fields ↔ Lawful others := by
  have onward : ∀ {fields others : Fields}, (fields.map fun entry => (entry.1, entry.2.isBlank)) =
      others.map (fun entry => (entry.1, entry.2.isBlank)) →
      (∀ list, Value.listedNames fields list = Value.listedNames others list) →
      Lawful fields → Lawful others := by
    rintro fields others blanks listed ⟨known, nulls⟩
    have names : fields.map (·.1) = others.map (·.1) := by
      simpa [Function.comp_def] using congrArg (List.map Prod.fst) blanks
    refine ⟨fun list isList name inside => ?_, fun name v member inside => ?_⟩
    · obtain ⟨held, ordinary⟩ := known list isList name (listed list ▸ inside)
      refine ⟨?_, ordinary⟩
      rw [Keyed.has, Option.isSome_iff_ne_none, ne_eq, Keyed.get?_eq_none_iff] at held ⊢
      rwa [← names]
    · -- The field of this name is listed as null in both, and as blank.
      have there : (name, v.isBlank) ∈ fields.map fun entry => (entry.1, entry.2.isBlank) :=
        blanks ▸ List.mem_map.2 ⟨_, member, rfl⟩
      obtain ⟨entry, before, same⟩ := List.mem_map.1 there
      obtain ⟨rfl, blank⟩ := Prod.mk.inj same
      rw [← blank]
      exact nulls entry.1 entry.2 before (listed nullFields ▸ inside)
  exact ⟨onward blanks listed, onward blanks.symm fun list => (listed list).symm⟩

end Parts

end Policy

end Triversion
