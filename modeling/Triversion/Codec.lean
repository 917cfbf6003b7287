import Triversion.Value.At

/-! How a representation is written as a value and rebuilt from one. -/

namespace Triversion

/-- The ways in which writing, rebuilding and copying representations fail. -/
inductive CopyFault where
  | notWritable (type reason : String)
  | notAStruct (type : String)
  | notRebuilt (type : String)
  deriving DecidableEq

/-- The explanation shown for a failure. -/
def CopyFault.message : CopyFault → String
  | .notWritable type reason => "cannot serialize " ++ type ++ ": " ++ reason
  | .notAStruct type => type ++ " is not a struct"
  | .notRebuilt type => "cannot rebuild " ++ type ++ " from copied fields"

/-- A named representation type with its default, its writer and its reader; both may be partial. -/
structure Codec (α : Type) where
  name : String
  initial : α
  encode : α → Except String Value
  decode : Value → Option α

namespace Codec

variable {α : Type}

/-- Writes a representation, naming the type on failure. -/
def write (codec : Codec α) (x : α) : Except CopyFault Value :=
  match codec.encode x with
  | .ok v => .ok v
  | .error reason => .error (.notWritable codec.name reason)

/-- Rebuilds a representation, naming the type on failure. -/
def rebuild (codec : Codec α) (v : Value) : Except CopyFault α :=
  match codec.decode v with
  | some x => .ok x
  | none => .error (.notRebuilt codec.name)

/-- What is written again after a rebuild, if the type accepts the value at all. -/
def roundTrip (codec : Codec α) (v : Value) : Option Value :=
  match codec.decode v with
  | none => none
  | some x => (codec.encode x).toOption

end Codec

end Triversion
