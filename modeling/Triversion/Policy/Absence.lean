import Triversion.Policy.Check

/-!
Recording absent fields in the bookkeeping lists.

In every struct that carries both lists, a null field belongs in `NullFields` and any other field
without information in `ForceSendFields`, unless its role exempts it.
-/

namespace Triversion.Policy

/-- Fields of these roles are never recorded. -/
def isExempt (role : Role) : Bool :=
  role = .outputOnly || role = .nonZero

/-- Whether the struct keeps both lists as sequences. -/
def isTracked (fields : Fields) : Bool :=
  ((Keyed.get? nullFields fields).any Value.isArray) &&
    ((Keyed.get? forceSendFields fields).any Value.isArray)

/-- The two lists of a struct. -/
structure AbsenceLists where
  nulls : List String
  forced : List String
  deriving DecidableEq

namespace AbsenceLists

/-- The lists as a struct has them, in ascending order and without repetition. -/
def ofFields (fields : Fields) : AbsenceLists :=
  ⟨namesIn fields nullFields, namesIn fields forceSendFields⟩

/-- Enters one field in the list that its value belongs in, and takes it out of the other. -/
def note (lists : AbsenceLists) (name : String) (v : Value) : AbsenceLists :=
  -- A struct without information keeps its own lists, so it counts as present.
  if v.isNull then ⟨NameSet.add name lists.nulls, NameSet.remove name lists.forced⟩
  else if v.isBlank && !v.isObject then
    ⟨NameSet.remove name lists.nulls, NameSet.add name lists.forced⟩
  else lists

/-- Enters every field of a struct that a policy does not exempt. -/
def noteFields (policy : Policy) (path : Path) (lists : AbsenceLists) (fields : Fields) :
    AbsenceLists :=
  fields.foldl
    (fun lists entry =>
      let role := policy.roleAt (path.field entry.1)
      if isBookkeeping entry.1 || role = .system || isExempt role then lists
      else lists.note entry.1 entry.2)
    lists

/-- Writes the lists into a struct. -/
def store (lists : AbsenceLists) (fields : Fields) : Fields :=
  Keyed.put forceSendFields (Value.strings lists.forced)
    (Keyed.put nullFields (Value.strings lists.nulls) fields)

end AbsenceLists

mutual
/-- Records the absent fields of every struct inside a value. -/
def recordIn (policy : Policy) (path : Path) : Value → Value
  | .object fields =>
    -- The lists are computed from the fields as they were, before anything inside them is recorded.
    let filled := recordInFields policy path fields
    if isTracked fields then
      .object (((AbsenceLists.ofFields fields).noteFields policy path fields).store filled)
    else .object filled
  | .array items => .array (recordInItems policy path 0 items)
  | .null => .null
  | .bool b => .bool b
  | .number n => .number n
  | .string s => .string s
termination_by structural v => v

/-- Records absences inside the fields of a struct, except bookkeeping and system fields. -/
def recordInFields (policy : Policy) (path : Path) : List (String × Value) → List (String × Value)
  | [] => []
  | (name, v) :: rest =>
    let here := path.field name
    let filled :=
      if isBookkeeping name || policy.roleAt here = .system then v
      else recordIn policy here v
    (name, filled) :: recordInFields policy path rest
termination_by structural v => v

/-- Records absences inside the items of a sequence from a position on. -/
def recordInItems (policy : Policy) (path : Path) (i : Nat) : List Value → List Value
  | [] => []
  | v :: rest => recordIn policy (path.index i) v :: recordInItems policy path (i + 1) rest
termination_by structural v => v
end

/-- Records the absent fields of a representation, which is rebuilt from the result. -/
def recordAbsences {α : Type} (policy : Policy) (codec : Codec α) (x : α) : Except Fault α :=
  match codec.write x with
  | .error fault => .error (.copy fault)
  | .ok v =>
    match codec.rebuild (policy.recordIn Path.root v) with
    | .error fault => .error (.copy fault)
    | .ok filled => .ok filled

/-- Whether a struct has both lists, of whatever kind. -/
def hasLists (fields : Fields) : Bool :=
  Keyed.has nullFields fields && Keyed.has forceSendFields fields

mutual
/-- The routes of absent fields that no list records, inside a value. -/
def unrecordedIn (policy : Policy) (path : Path) : Value → List Path
  | .object fields =>
    unrecordedInFields policy path (hasLists fields)
      (Value.listedNames fields nullFields ++ Value.listedNames fields forceSendFields) fields
  | .array items => unrecordedInItems policy path 0 items
  | _ => []
termination_by structural v => v

/-- The routes of unrecorded fields of a struct, each before those inside it. -/
def unrecordedInFields (policy : Policy) (path : Path) (tracked : Bool) (recorded : List String) :
    List (String × Value) → List Path
  | [] => []
  | (name, v) :: rest =>
    let here := path.field name
    let role := policy.roleAt here
    if isBookkeeping name || role = .system then
      unrecordedInFields policy path tracked recorded rest
    else
      -- Here a list may be of any kind, and one that is no sequence records nothing.
      let absent :=
        tracked && !isExempt role && v.isBlank && !v.isObject && !recorded.contains name
      (if absent then [here] else []) ++ unrecordedIn policy here v ++
        unrecordedInFields policy path tracked recorded rest
termination_by structural v => v

/-- The routes of unrecorded fields inside the items of a sequence from a position on. -/
def unrecordedInItems (policy : Policy) (path : Path) (i : Nat) : List Value → List Path
  | [] => []
  | v :: rest =>
    unrecordedIn policy (path.index i) v ++ unrecordedInItems policy path (i + 1) rest
termination_by structural v => v
end

/-- The routes of all absent fields of a representation that its lists do not record. -/
def unrecorded {α : Type} (policy : Policy) (codec : Codec α) (x : α) :
    Except Fault (List Path) :=
  match codec.write x with
  | .error fault => .error (.copy fault)
  | .ok v => .ok (policy.unrecordedIn Path.root v)

end Triversion.Policy
