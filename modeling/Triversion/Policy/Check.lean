import Triversion.Fault
import Triversion.NameSet
import Triversion.Policy.Basic

/-! Checking a value against the policy of its version, at every struct inside it. -/

namespace Triversion.Policy

/-- The names in a bookkeeping list, in ascending order and each once. -/
def namesIn (fields : Fields) (list : String) : List String :=
  NameSet.ofList (Value.listedNames fields list)

/-- The first name that is no field of the struct, or is a bookkeeping list itself. -/
def unknownName? (fields : Fields) (names : List String) : Option String :=
  names.find? fun name => !Keyed.has name fields || isBookkeeping name

/-- Every name in the lists must be a field of the struct. -/
def checkLists (version : Version) (path : Path) (fields : Fields) :
    List String → Except Fault Unit
  | [] => .ok ()
  | list :: rest =>
    match unknownName? fields (namesIn fields list) with
    | some name => .error (.policy version (path.field list) (.unknownName name))
    | none => checkLists version path fields rest

/-- The breach that one field commits by itself, given its role and whether the lists name it. -/
def breach? (role : Role) (isNull isForced : Bool) (v : Value) : Option PolicyBreach :=
  -- A field of a stricter role is blamed for its role first, and for its lists second.
  if role = .outputOnly ∧ ¬v.isBlank then some .outputOnlySet
  else if role = .nonZero ∧ v.isBlank ∧ (isNull || isForced) then some .explicitZero
  else if isNull && !v.isBlank then some .setButNull
  else none

mutual
/-- Checks every struct inside a value. -/
def checkIn (policy : Policy) (version : Version) (path : Path) :
    Value → Except Fault Unit
  | .object fields =>
    -- The lists come before all fields, whatever the order of their names.
    match checkLists version path fields bookkeepingLists with
    | .error fault => .error fault
    | .ok () =>
      checkInFields policy version path (namesIn fields nullFields)
        (namesIn fields forceSendFields) fields
  | .array items => checkInItems policy version path 0 items
  | _ => .ok ()
termination_by structural v => v

/-- Checks the fields of a struct in order, each one before what is inside it. -/
def checkInFields (policy : Policy) (version : Version) (path : Path)
    (nulls forced : List String) : List (String × Value) → Except Fault Unit
  | [] => .ok ()
  | (name, v) :: rest =>
    let here := path.field name
    let role := policy.roleAt here
    -- What the system keeps is not looked at, and neither is anything inside it.
    if isBookkeeping name || role = .system then
      checkInFields policy version path nulls forced rest
    else
      match breach? role (nulls.contains name) (forced.contains name) v with
      | some breach => .error (.policy version here breach)
      | none =>
        match checkIn policy version here v with
        | .error fault => .error fault
        | .ok () => checkInFields policy version path nulls forced rest
termination_by structural v => v

/-- Checks the items of a sequence from a position on. -/
def checkInItems (policy : Policy) (version : Version) (path : Path) (i : Nat) :
    List Value → Except Fault Unit
  | [] => .ok ()
  | v :: rest =>
    match checkIn policy version (path.index i) v with
    | .error fault => .error fault
    | .ok () => checkInItems policy version path (i + 1) rest
termination_by structural v => v
end

/-- Checks a representation against the policy of its version. -/
def check {α : Type} (policy : Policy) (version : Version) (codec : Codec α) (x : α) :
    Except Fault Unit :=
  match codec.write x with
  | .error fault => .error (.copy fault)
  | .ok v => policy.checkIn version Path.root v

end Triversion.Policy
