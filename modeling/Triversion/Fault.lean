import Triversion.Codec
import Triversion.Identity
import Triversion.Missing

/-! Everything that can go wrong with a resource, each cause with the explanation shown for it. -/

namespace Triversion

/-- What a representation type can lack. -/
inductive SchemaDefect where
  /-- The default is written as something other than a struct. -/
  | notAStruct (kind : String)
  /-- The identity field is no string. -/
  | nameKind (kind : String)
  /-- A bookkeeping list is no sequence. -/
  | listKind (list kind : String)
  /-- The default cannot be rebuilt. -/
  | defaultRefused (fault : CopyFault)
  /-- The default is rebuilt as something else. -/
  | defaultChanged
  /-- The identity field cannot take a name. -/
  | nameNotAssignable (kind : String)
  /-- A declared route names no field. -/
  | noField (path : Path) (name : String)
  /-- A declared route continues below something that has no fields. -/
  | noFields (path : Path) (kind : String)
  deriving DecidableEq

/-- The explanation shown for a defect of a type. -/
def SchemaDefect.message : SchemaDefect → String
  | .notAStruct kind => "serializes to a " ++ kind ++ ", not a struct"
  | .nameKind kind => ".Name is a " ++ kind ++ ", not a string"
  | .listKind list kind => "." ++ list ++ " is a " ++ kind ++ ", not a sequence"
  | .defaultRefused fault => fault.message
  | .defaultChanged => "default value does not survive a round trip"
  | .nameNotAssignable kind => "cannot assign resource name to .Name of kind " ++ kind
  | .noField path name => "field trait " ++ path.text ++ ": no field " ++ quoted name
  | .noFields path kind => "field trait " ++ path.text ++ ": " ++ kind ++ " has no fields"

/-- How a value breaks the policy of its fields. -/
inductive PolicyBreach where
  | unknownName (name : String)
  | outputOnlySet
  | explicitZero
  | setButNull
  deriving DecidableEq

/-- The explanation shown for a breach of policy. -/
def PolicyBreach.message : PolicyBreach → String
  | .unknownName name => "names unknown field " ++ quoted name
  | .outputOnlySet => "output-only field is set"
  | .explicitZero => "zero value cannot be sent explicitly"
  | .setButNull => "field is set but listed in NullFields"

/-- The ways in which operations on resources and on their texts fail. -/
inductive Fault where
  | schema (type : String) (defect : SchemaDefect)
  | policy (version : Version) (path : Path) (breach : PolicyBreach)
  | copy (fault : CopyFault)
  | hook (direction : Direction) (reason : String)
  | shortfall (lacking : Shortfall)
  | ambiguous (stable alpha beta : Option Shortfall)
  | invalidPath (input : String) (defect : PathDefect)
  | invalidUrl (input : String) (defect : UrlDefect)
  /-- A scripted hook was called out of turn, which ends the operation on the spot. -/
  | outOfScript (reason : String)
  deriving DecidableEq

/-- The explanation shown for a failure. -/
def Fault.message : Fault → String
  | .schema type defect => "schema error in " ++ type ++ ": " ++ defect.message
  | .policy version path breach =>
    version.text ++ " field " ++ path.text ++ ": " ++ breach.message
  | .copy fault => fault.message
  | .hook direction reason => "bridging hook " ++ direction.text ++ " failed: " ++ reason
  | .shortfall lacking => lacking.message
  | .ambiguous stable alpha beta =>
    "indeterminate version (stable=" ++ Shortfall.optionText stable ++
      ", alpha=" ++ Shortfall.optionText alpha ++
      ", beta=" ++ Shortfall.optionText beta ++ ")"
  | .invalidPath input defect => "invalid path " ++ quoted input ++ ": " ++ defect.message
  | .invalidUrl input defect =>
    "invalid resource URL " ++ quoted input ++ ": " ++ defect.message
  | .outOfScript reason => reason

/-- Reads a written route. -/
def Path.read (text : String) : Except Fault Path :=
  match Path.ofText text with
  | .ok path => .ok path
  | .error defect => .error (.invalidPath text defect)

/-- Reads the identity in a resource URL. -/
def Identity.read (url : String) : Except Fault Identity :=
  match Identity.ofUrl url with
  | .ok id => .ok id
  | .error defect => .error (.invalidUrl url defect)

end Triversion
