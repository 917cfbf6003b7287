import Triversion.Codec
import Triversion.Compute.Labels

/-! Codecs of records that are given member by member. -/

namespace Triversion

/-- A member of a record: its name, how it is written, and how it is set from a value. -/
structure Member (ρ : Type) where
  name : String
  write : ρ → Value
  read : ρ → Value → Option ρ

namespace Member

variable {ρ : Type}

/-- A member that holds text. -/
def text (name : String) (get : ρ → String) (set : ρ → String → ρ) : Member ρ where
  name := name
  write x := .string (get x)
  read x v := (v.string?).map (set x)

/-- The truth value that a value is. -/
def bool? : Value → Option Bool
  | .bool b => some b
  | _ => none

/-- A member that holds a truth value. -/
def flag (name : String) (get : ρ → Bool) (set : ρ → Bool → ρ) : Member ρ where
  name := name
  write x := .bool (get x)
  read x v := (bool? v).map (set x)

/-- The texts that a sequence lists. -/
def texts? : Value → Option (List String)
  | .array items => items.mapM Value.string?
  | _ => none

/-- A member that holds a list of texts. -/
def texts (name : String) (get : ρ → List String) (set : ρ → List String → ρ) : Member ρ where
  name := name
  write x := Value.strings (get x)
  read x v := (texts? v).map (set x)

/-- The label that a field is. -/
def labelEntry? (field : String × Value) : Option (String × String) :=
  field.2.string?.map fun text => (field.1, text)

/-- The labels that an object lists. -/
def labels? : Value → Option Labels
  | .object fields =>
    (fields.mapM labelEntry?).map Labels.ofList
  | _ => none

/-- A member that holds labels. -/
def labels (name : String) (get : ρ → Labels) (set : ρ → Labels → ρ) : Member ρ where
  name := name
  write x := .object ((get x).entries.map fun entry => (entry.1, .string entry.2))
  read x v := (labels? v).map (set x)

/-- The written form of a record. -/
def writeAll (members : List (Member ρ)) (x : ρ) : Value :=
  Value.ofFields (members.map fun member => (member.name, member.write x))

/-- Sets the members that an object holds; unknown keys are ignored. -/
def readNamed (fields : Fields) : List (Member ρ) → ρ → Option ρ
  | [], x => some x
  -- A member that is not given keeps what the record had before.
  | member :: rest, x =>
    match Keyed.get? member.name fields with
    | none => readNamed fields rest x
    | some v => (member.read x v).bind (readNamed fields rest)

/-- Sets the first members from a sequence, which must not be longer than the record. -/
def readPositions : List (Member ρ) → List Value → ρ → Option ρ
  | _, [], x => some x
  | [], _ :: _, _ => none
  | member :: rest, v :: items, x => (member.read x v).bind (readPositions rest items)

/-- Reads a record over its default, from an object or from a sequence in declaration order. -/
def readAll? (members : List (Member ρ)) (initial : ρ) : Value → Option ρ
  | .object fields => readNamed fields members initial
  | .array items => readPositions members items initial
  | _ => none

/-- The codec of a record that is given member by member. -/
def codec (name : String) (initial : ρ) (members : List (Member ρ)) : Codec ρ where
  name := name
  initial := initial
  encode x := .ok (writeAll members x)
  decode := readAll? members initial

end Member

end Triversion
