import Triversion.Fault
import Triversion.Policy.Basic

/-! What a representation type must offer before resources can be built on it. -/

namespace Triversion

namespace Codec

variable {α : Type}

/-- The first bookkeeping list that is there and is no sequence. -/
def listDefect? (fields : Fields) : List String → Option SchemaDefect
  | [] => none
  | list :: rest =>
    match Keyed.get? list fields with
    | some v => if v.isArray then listDefect? fields rest else some (.listKind list v.kind)
    | none => listDefect? fields rest

/-- What is wrong with the reserved fields of a written default. -/
def fieldDefect? (fields : Fields) : Option SchemaDefect :=
  match Keyed.get? nameField fields with
  | some v => if v.isString then listDefect? fields bookkeepingLists else some (.nameKind v.kind)
  | none => listDefect? fields bookkeepingLists

/-- The default must be rebuilt as the same value from its written form. -/
def checkDefault (codec : Codec α) (v : Value) : Except Fault Unit :=
  match codec.rebuild v with
  | .error fault => .error (.schema codec.name (.defaultRefused fault))
  | .ok rebuilt =>
    match codec.write rebuilt with
    | .error fault => .error (.copy fault)
    | .ok again =>
      if again.agrees v then .ok () else .error (.schema codec.name .defaultChanged)

/-- Checks the contract of a representation type on its default. -/
def checkContract (codec : Codec α) : Except Fault Unit :=
  match codec.write codec.initial with
  | .error fault => .error (.copy fault)
  | .ok v =>
    -- The reserved fields are looked at before the default is rebuilt.
    match v with
    | .object fields =>
      match fieldDefect? fields with
      | some defect => .error (.schema codec.name defect)
      | none => codec.checkDefault v
    | other => .error (.schema codec.name (.notAStruct other.kind))

/-- Sets the identity field to a name, where the type has one. -/
def withName (codec : Codec α) (name : String) (x : α) : Except Fault α :=
  match codec.write x with
  | .error fault => .error (.copy fault)
  | .ok (.object fields) =>
    match Keyed.get? nameField fields with
    | none => .ok x
    -- Only a name that is a string already can take another string.
    | some (.string _) =>
      match codec.rebuild (.object (Keyed.put nameField (.string name) fields)) with
      | .error fault => .error (.copy fault)
      | .ok named => .ok named
    | some other => .error (.schema codec.name (.nameNotAssignable other.kind))
  | .ok _ => .ok x

end Codec

namespace Policy

/--
What is wrong with a declared route, followed from a written default.

What lies below null or inside a sequence cannot be seen in a default and is accepted.
-/
def declarationDefect? (path : Path) : Value → Path → Option SchemaDefect
  | _, [] => none
  | .null, _ :: _ => none
  | .array _, _ :: _ => none
  | .object fields, segment :: rest =>
    -- A key step looks up a field like a field step does; a position finds nothing here.
    match segment.name? with
    | none => some (.noFields path (Value.object fields).kind)
    | some name =>
      match Keyed.get? name fields with
      | some v => declarationDefect? path v rest
      | none => some (.noField path name)
  | v, _ :: _ => some (.noFields path v.kind)

/-- Checks that every declared route names a field of the type. -/
def checkDeclared {α : Type} (policy : Policy) (codec : Codec α) : Except Fault Unit :=
  match codec.write codec.initial with
  | .error fault => .error (.copy fault)
  | .ok v =>
    match policy.declared.findSome? fun entry => declarationDefect? entry.1 v entry.1 with
    | some defect => .error (.schema codec.name defect)
    | none => .ok ()

end Policy

end Triversion
