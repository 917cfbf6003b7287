import Triversion.Catalog
import Triversion.Policy.Check
import Triversion.Proofs.NameSet
import Triversion.Proofs.Value.WellFormed

/-!
The policy check is exact.

A value passes if every struct that the check looks at keeps all rules, and what is reported of any
other value is a breach that one of these structs really commits.
-/

namespace Triversion.Policy

/--
A struct that the check looks at.

It is the value itself, or stands behind items and behind fields that are neither bookkeeping lists
nor kept by the system.
-/
inductive StructAt (policy : Policy) : Path → Value → Path → Fields → Prop where
  | here {path : Path} {fields : Fields} : StructAt policy path (.object fields) path fields
  | item {path place : Path} {items : List Value} {i : Nat} {v : Value} {fields : Fields}
    (found : items[i]? = some v) (inside : StructAt policy (path.index i) v place fields) :
    StructAt policy path (.array items) place fields
  | field {path place : Path} {outer fields : Fields} {name : String} {v : Value}
    (member : (name, v) ∈ outer) (ordinary : isBookkeeping name = false)
    (visible : policy.roleAt (path.field name) ≠ .system)
    (inside : StructAt policy (path.field name) v place fields) :
    StructAt policy path (.object outer) place fields

/-- The rules that a struct at a route has to keep. -/
structure Keeps (policy : Policy) (path : Path) (fields : Fields) : Prop where
  listed : ∀ list ∈ bookkeepingLists, ∀ name ∈ Value.listedNames fields list,
    Keyed.has name fields = true ∧ isBookkeeping name = false
  outputOnly : ∀ name v, (name, v) ∈ fields → isBookkeeping name = false →
    policy.roleAt (path.field name) = .outputOnly → v.isBlank = true
  nonZero : ∀ name v, (name, v) ∈ fields → policy.roleAt (path.field name) = .nonZero →
    v.isBlank = true → ∀ list ∈ bookkeepingLists, name ∉ Value.listedNames fields list
  nulls : ∀ name v, (name, v) ∈ fields → policy.roleAt (path.field name) ≠ .system →
    name ∈ Value.listedNames fields nullFields → v.isBlank = true

/-- A breach that a struct commits at the route of one of its lists or fields. -/
inductive Breaks (policy : Policy) (path : Path) (fields : Fields) : Path → PolicyBreach → Prop
  where
  | unknownName {list name : String} (isList : list ∈ bookkeepingLists)
    (listed : name ∈ Value.listedNames fields list)
    (unknown : Keyed.has name fields = false ∨ isBookkeeping name = true) :
    Breaks policy path fields (path.field list) (.unknownName name)
  | outputOnlySet {name : String} {v : Value} (member : (name, v) ∈ fields)
    (ordinary : isBookkeeping name = false)
    (role : policy.roleAt (path.field name) = .outputOnly) (set : v.isBlank = false) :
    Breaks policy path fields (path.field name) .outputOnlySet
  | explicitZero {name list : String} {v : Value} (member : (name, v) ∈ fields)
    (role : policy.roleAt (path.field name) = .nonZero) (blank : v.isBlank = true)
    (isList : list ∈ bookkeepingLists) (listed : name ∈ Value.listedNames fields list) :
    Breaks policy path fields (path.field name) .explicitZero
  | setButNull {name : String} {v : Value} (member : (name, v) ∈ fields)
    (visible : policy.roleAt (path.field name) ≠ .system)
    (listed : name ∈ Value.listedNames fields nullFields) (set : v.isBlank = false) :
    Breaks policy path fields (path.field name) .setButNull

variable {policy : Policy} {version : Version} {path : Path} {fields : Fields}

/-- A struct inside a field of a struct is inside whatever this struct is inside. -/
theorem StructAt.field_trans {place deep : Path} {v w : Value} {outer : Fields} {name : String}
    (inside : policy.StructAt path v place outer) (member : (name, w) ∈ outer)
    (ordinary : isBookkeeping name = false) (visible : policy.roleAt (place.field name) ≠ .system)
    (deeper : policy.StructAt (place.field name) w deep fields) :
    policy.StructAt path v deep fields := by
  induction inside with
  | here => exact .field member ordinary visible deeper
  | item found _ ih => exact .item found (ih member visible deeper)
  | field outside other looked _ ih => exact .field outside other looked (ih member visible deeper)

/-- A struct that keeps all rules commits no breach. -/
theorem Keeps.not_breaks (keeps : policy.Keeps path fields) {route : Path}
    {breach : PolicyBreach} : ¬ policy.Breaks path fields route breach := by
  intro breaks
  cases breaks with
  | unknownName isList listed unknown =>
    obtain ⟨held, ordinary⟩ := keeps.listed _ isList _ listed
    rcases unknown with missing | reserved
    · simp [missing] at held
    · simp [reserved] at ordinary
  | outputOnlySet member ordinary role set =>
    simp [keeps.outputOnly _ _ member ordinary role] at set
  | explicitZero member role blank isList listed =>
    exact keeps.nonZero _ _ member role blank _ isList listed
  | setButNull member visible listed set =>
    simp [keeps.nulls _ _ member visible listed] at set

section Level

/-- The names of a list are read as they are listed. -/
@[simp] theorem mem_namesIn {list name : String} :
    name ∈ namesIn fields list ↔ name ∈ Value.listedNames fields list :=
  NameSet.mem_ofList

/-- No name is unknown exactly if all names are ordinary names of the struct. -/
theorem unknownName?_eq_none_iff {names : List String} :
    unknownName? fields names = none ↔
      ∀ name ∈ names, Keyed.has name fields = true ∧ isBookkeeping name = false := by
  simp [unknownName?]

/-- The lists pass if none of them names something unknown. -/
theorem checkLists_ok {lists : List String}
    (passed : checkLists version path fields lists = .ok ()) :
    ∀ list ∈ lists, unknownName? fields (namesIn fields list) = none := by
  induction lists with
  | nil => simp
  | cons list rest ih =>
    rw [checkLists] at passed
    split at passed
    · simp at passed
    · next none => exact List.forall_mem_cons.2 ⟨none, ih passed⟩

/-- A refusal of the lists is about an unknown name in one of them. -/
theorem checkLists_error {lists : List String} {fault : Fault}
    (refused : checkLists version path fields lists = .error fault) :
    ∃ list ∈ lists, ∃ name, unknownName? fields (namesIn fields list) = some name ∧
      fault = .policy version (path.field list) (.unknownName name) := by
  induction lists with
  | nil => simp [checkLists] at refused
  | cons list rest ih =>
    rw [checkLists] at refused
    split at refused
    · next name found =>
      exact ⟨list, List.mem_cons_self, name, found, (Except.error.inj refused).symm⟩
    · obtain ⟨other, member, found⟩ := ih refused
      exact ⟨other, List.mem_cons_of_mem _ member, found⟩

/-- A field of a struct that the walk over the fields stops at. -/
def Visited (policy : Policy) (path : Path) (entry : String × Value) : Prop :=
  isBookkeeping entry.1 = false ∧ policy.roleAt (path.field entry.1) ≠ .system

/-- What a field commits by itself, given the lists of its struct. -/
def fieldBreach? (policy : Policy) (path : Path) (nulls forced : List String)
    (entry : String × Value) : Option PolicyBreach :=
  breach? (policy.roleAt (path.field entry.1)) (nulls.contains entry.1) (forced.contains entry.1)
    entry.2

variable {nulls forced : List String}

/-- The first field is passed over, or judged by itself and by what is inside it. -/
theorem checkInFields_cons (entry : String × Value) (rest : Fields) :
    policy.checkInFields version path nulls forced (entry :: rest) =
      if isBookkeeping entry.1 || policy.roleAt (path.field entry.1) = .system then
        policy.checkInFields version path nulls forced rest
      else
        match policy.fieldBreach? path nulls forced entry with
        | some breach => .error (.policy version (path.field entry.1) breach)
        | none =>
          match policy.checkIn version (path.field entry.1) entry.2 with
          | .error fault => .error fault
          | .ok () => policy.checkInFields version path nulls forced rest := by
  obtain ⟨name, v⟩ := entry
  rw [checkInFields]
  rfl

/-- The fields pass if every visited one commits nothing and passes inside. -/
theorem checkInFields_ok {entries : Fields}
    (passed : policy.checkInFields version path nulls forced entries = .ok ()) :
    ∀ entry ∈ entries, policy.Visited path entry →
      policy.fieldBreach? path nulls forced entry = none ∧
        policy.checkIn version (path.field entry.1) entry.2 = .ok () := by
  induction entries with
  | nil => simp
  | cons entry rest ih =>
    rw [checkInFields_cons] at passed
    split at passed
    · next skipped =>
      refine List.forall_mem_cons.2 ⟨fun visited => ?_, ih passed⟩
      simp [visited.1, visited.2] at skipped
    · split at passed
      · simp at passed
      · next clean =>
        split at passed
        · simp at passed
        · next inside => exact List.forall_mem_cons.2 ⟨fun _ => ⟨clean, inside⟩, ih passed⟩

/-- A refusal of the fields is about a visited field, or about something inside one. -/
theorem checkInFields_error {entries : Fields} {fault : Fault}
    (refused : policy.checkInFields version path nulls forced entries = .error fault) :
    ∃ entry ∈ entries, policy.Visited path entry ∧
      ((∃ breach, policy.fieldBreach? path nulls forced entry = some breach ∧
          fault = .policy version (path.field entry.1) breach) ∨
        policy.checkIn version (path.field entry.1) entry.2 = .error fault) := by
  induction entries with
  | nil => simp [checkInFields] at refused
  | cons entry rest ih =>
    rw [checkInFields_cons] at refused
    split at refused
    · obtain ⟨other, member, found⟩ := ih refused
      exact ⟨other, List.mem_cons_of_mem _ member, found⟩
    · next visited =>
      have visited : policy.Visited path entry := by simpa [Visited] using visited
      split at refused
      · next breach found =>
        exact ⟨entry, List.mem_cons_self, visited, .inl ⟨breach, found,
          (Except.error.inj refused).symm⟩⟩
      · split at refused
        · next inside =>
          obtain rfl := Except.error.inj refused
          exact ⟨entry, List.mem_cons_self, visited, .inr inside⟩
        · obtain ⟨other, member, found⟩ := ih refused
          exact ⟨other, List.mem_cons_of_mem _ member, found⟩

/-- The items pass from a position on if each of them does. -/
theorem checkInItems_ok {items : List Value} {i : Nat}
    (passed : policy.checkInItems version path i items = .ok ()) {j : Nat} {v : Value}
    (found : items[j]? = some v) :
    policy.checkIn version (path.index (i + j)) v = .ok () := by
  induction items generalizing i j with
  | nil => simp at found
  | cons first rest ih =>
    rw [checkInItems] at passed
    split at passed
    · simp at passed
    · next inside =>
      cases j with
      | zero =>
        obtain rfl : first = v := by simpa using found
        exact inside
      | succ j =>
        rw [show i + (j + 1) = i + 1 + j by omega]
        exact ih passed (by simpa using found)

/-- A refusal of items is a refusal of one of them. -/
theorem checkInItems_error {items : List Value} {i : Nat} {fault : Fault}
    (refused : policy.checkInItems version path i items = .error fault) :
    ∃ j v, items[j]? = some v ∧ policy.checkIn version (path.index (i + j)) v = .error fault := by
  induction items generalizing i with
  | nil => simp [checkInItems] at refused
  | cons first rest ih =>
    rw [checkInItems] at refused
    split at refused
    · next inside =>
      obtain rfl := Except.error.inj refused
      exact ⟨0, first, rfl, inside⟩
    · obtain ⟨j, v, found, inside⟩ := ih refused
      exact ⟨j + 1, v, found, by rwa [show i + (j + 1) = i + 1 + j by omega]⟩

/-- What a field commits by itself breaks a rule of its struct. -/
theorem breaks_of_fieldBreach? {entry : String × Value} {breach : PolicyBreach}
    (member : entry ∈ fields) (visited : policy.Visited path entry)
    (found : policy.fieldBreach? path (namesIn fields nullFields) (namesIn fields forceSendFields)
      entry = some breach) :
    policy.Breaks path fields (path.field entry.1) breach := by
  obtain ⟨ordinary, visible⟩ := visited
  rw [fieldBreach?, breach?] at found
  split at found
  · next set =>
    obtain rfl := Option.some.inj found
    exact .outputOnlySet member ordinary set.1 (by simpa using set.2)
  · split at found
    · next explicit =>
      obtain rfl := Option.some.inj found
      obtain ⟨role, blank, listed⟩ := explicit
      rcases Bool.or_eq_true_iff.1 listed with null | forced
      · exact .explicitZero member role blank nullFields_mem (by simpa using null)
      · exact .explicitZero member role blank forceSendFields_mem (by simpa using forced)
    · split at found
      · next set =>
        obtain rfl := Option.some.inj found
        obtain ⟨null, set⟩ := Bool.and_eq_true_iff.1 set
        exact .setButNull member visible (by simpa using null) (by simpa using set)
      · simp at found

/-- A struct keeps all rules if its lists pass and its visited fields commit nothing. -/
theorem keeps_of_clean
    (lists : ∀ list ∈ bookkeepingLists, unknownName? fields (namesIn fields list) = none)
    (clean : ∀ entry ∈ fields, policy.Visited path entry →
      policy.fieldBreach? path (namesIn fields nullFields) (namesIn fields forceSendFields)
        entry = none) :
    policy.Keeps path fields := by
  -- A bookkeeping list cannot be listed itself, so only ordinary fields are left to the roles.
  have listed : ∀ list ∈ bookkeepingLists, ∀ name ∈ Value.listedNames fields list,
      Keyed.has name fields = true ∧ isBookkeeping name = false := fun list isList name inside =>
    unknownName?_eq_none_iff.1 (lists list isList) name (mem_namesIn.2 inside)
  refine ⟨listed, fun name v member ordinary role => ?_, fun name v member role blank => ?_,
    fun name v member visible inside => ?_⟩
  · have none := clean _ member ⟨ordinary, by simp [role]⟩
    cases set : v.isBlank with
    | true => rfl
    | false => simp [fieldBreach?, breach?, role, set] at none
  · intro list isList inside
    have none := clean _ member ⟨(listed list isList name inside).2, by simp [role]⟩
    rcases mem_bookkeepingLists.1 isList with rfl | rfl <;>
      simp [fieldBreach?, breach?, role, blank, inside] at none
  · have none := clean _ member ⟨(listed _ nullFields_mem name inside).2, visible⟩
    cases set : v.isBlank with
    | true => rfl
    | false =>
      by_cases role : policy.roleAt (path.field name) = .outputOnly <;>
        simp [fieldBreach?, breach?, set, inside, role] at none

end Level

/-- The check of a struct is the check of its lists and then of its fields. -/
theorem checkIn_object_ok
    (passed : policy.checkIn version path (.object fields) = .ok ()) :
    (∀ list ∈ bookkeepingLists, unknownName? fields (namesIn fields list) = none) ∧
      ∀ entry ∈ fields, policy.Visited path entry →
        policy.fieldBreach? path (namesIn fields nullFields) (namesIn fields forceSendFields)
          entry = none ∧ policy.checkIn version (path.field entry.1) entry.2 = .ok () := by
  rw [checkIn] at passed
  split at passed
  · simp at passed
  · next lists => exact ⟨checkLists_ok lists, checkInFields_ok passed⟩

/-- Every struct inside a value that passes keeps the rules. -/
theorem keeps_of_checkIn_ok {v : Value} {place : Path} {inner : Fields}
    (passed : policy.checkIn version path v = .ok ())
    (inside : policy.StructAt path v place inner) : policy.Keeps place inner := by
  -- The walk enters whatever lies on the way to the struct, and passes there too.
  induction inside with
  | here =>
    obtain ⟨lists, each⟩ := checkIn_object_ok passed
    exact keeps_of_clean lists fun entry member visited => (each entry member visited).1
  | item found _ ih =>
    rw [checkIn] at passed
    have here := checkInItems_ok passed found
    rw [Nat.zero_add] at here
    exact ih here
  | field member ordinary visible _ ih =>
    exact ih ((checkIn_object_ok passed).2 _ member ⟨ordinary, visible⟩).2

/-- What is reported of a value is a breach that a struct inside it commits. -/
theorem breaks_of_checkIn_error {v : Value} {fault : Fault}
    (refused : policy.checkIn version path v = .error fault) :
    ∃ place inner route breach, policy.StructAt path v place inner ∧
      policy.Breaks place inner route breach ∧ fault = .policy version route breach := by
  -- A part is refused for what a struct inside it commits, and that struct is inside the whole.
  induction v using Value.inductionOn generalizing path with
  | array items ih =>
    rw [checkIn] at refused
    obtain ⟨i, v, found, refused⟩ := checkInItems_error refused
    rw [Nat.zero_add] at refused
    obtain ⟨place, inner, route, breach, inside, breaks, rfl⟩ :=
      ih v (List.mem_of_getElem? found) refused
    exact ⟨place, inner, route, breach, .item found inside, breaks, rfl⟩
  | object fields ih =>
    rw [checkIn] at refused
    split at refused
    · next lists =>
      obtain rfl := Except.error.inj refused
      obtain ⟨list, isList, name, unknown, rfl⟩ := checkLists_error lists
      have listed := mem_namesIn.1 (List.mem_of_find?_eq_some unknown)
      have reserved := List.find?_some unknown
      exact ⟨path, fields, _, _, .here, .unknownName isList listed (by simpa using reserved), rfl⟩
    · obtain ⟨⟨name, v⟩, member, visited, ⟨breach, found, rfl⟩ | refused⟩ :=
        checkInFields_error refused
      · exact ⟨path, fields, _, _, .here, breaks_of_fieldBreach? member visited found, rfl⟩
      · obtain ⟨place, inner, route, breach, inside, breaks, rfl⟩ := ih _ member refused
        exact ⟨place, inner, route, breach, .field member visited.1 visited.2 inside, breaks, rfl⟩
  | _ => simp [checkIn] at refused

/-- A value passes exactly if every struct inside it keeps the rules. -/
theorem checkIn_eq_ok_iff {v : Value} :
    policy.checkIn version path v = .ok () ↔
      ∀ place inner, policy.StructAt path v place inner → policy.Keeps place inner := by
  constructor
  · exact fun passed _ _ inside => keeps_of_checkIn_ok passed inside
  · intro keeps
    cases checked : policy.checkIn version path v with
    | ok _ => rfl
    | error fault =>
      -- A refusal would be about a struct that breaks a rule.
      obtain ⟨place, inner, _, _, inside, breaks, -⟩ := breaks_of_checkIn_error checked
      exact absurd breaks (keeps place inner inside).not_breaks

/--
The check of a representation is exact.

It passes exactly if the representation can be written and all structs inside keep the rules. What
it reports otherwise is that nothing can be written, or a breach of the given version at the route
of a list or field that commits it.
-/
theorem check_is_exact {α : Type} (policy : Policy) (version : Version) (codec : Codec α) (x : α) :
    (policy.check version codec x = .ok () ↔
      ∃ v, codec.write x = .ok v ∧
        ∀ place fields, policy.StructAt Path.root v place fields → policy.Keeps place fields) ∧
    ∀ fault, policy.check version codec x = .error fault →
      (∃ unwritten, codec.write x = .error unwritten ∧ fault = .copy unwritten) ∨
      ∃ v place fields route breach, codec.write x = .ok v ∧
        policy.StructAt Path.root v place fields ∧ policy.Breaks place fields route breach ∧
        fault = .policy version route breach := by
  rw [check]
  cases written : codec.write x with
  | error unwritten =>
    refine ⟨⟨by simp, by simp⟩, fun fault refused => .inl ⟨unwritten, rfl, ?_⟩⟩
    exact (Except.error.inj refused).symm
  | ok v =>
    refine ⟨⟨fun passed => ⟨v, rfl, fun _ _ => keeps_of_checkIn_ok passed⟩, ?_⟩, ?_⟩
    · rintro ⟨_, same, keeps⟩
      obtain rfl := Except.ok.inj same
      -- A refusal would report a breach of a struct that keeps all rules.
      cases checked : policy.checkIn version Path.root v with
      | ok _ => exact checked
      | error fault =>
        obtain ⟨place, fields, _, _, inside, breaks, -⟩ := breaks_of_checkIn_error checked
        exact absurd breaks (keeps place fields inside).not_breaks
    · intro fault refused
      obtain ⟨place, fields, route, breach, inside, breaks, same⟩ :=
        breaks_of_checkIn_error refused
      exact .inr ⟨v, place, fields, route, breach, rfl, inside, breaks, same⟩

/-- Null is sent for a field on purpose. -/
private def nulled : Value :=
  .object [("Maybe", .null), ("Name", .string ""), ("NullFields", .strings ["Maybe"]),
    ("Size", .whole 0)]

/-- Not every field that only the server sets is checked: a bookkeeping list never is. -/
theorem not_every_set_output_is_refused :
    ¬ ∀ (α : Type) (policy : Policy) (version : Version) (codec : Codec α) (x : α) (v : Value),
      codec.write x = .ok v → policy.check version codec x = .ok () →
      ∀ place fields, policy.StructAt Path.root v place fields →
        ∀ name inner, (name, inner) ∈ fields →
          policy.roleAt (place.field name) = .outputOnly → inner.isBlank = true := by
  intro always
  have blank := always Value (Policy.initial.declare (Path.root.field nullFields) .outputOnly)
    .stable (Catalog.nullsOnly.codec "NullsOnly") nulled nulled rfl (by rfl) Path.root _
    .here nullFields (.strings ["Maybe"]) (by simp [nullFields]) (by decide)
  exact absurd blank (by decide)

end Triversion.Policy
