import Triversion.Path.Notation
import Triversion.Transfer.Journal
import Triversion.Value.Notation
import Triversion.Version

/-! Values that were set in one version and have no place in another. -/

namespace Triversion

/-- A value that a copy in some direction could not carry over. -/
structure Missing where
  direction : Direction
  path : Path
  value : Value
  deriving DecidableEq

/-- A loss of a copy becomes a missing value of its direction. -/
def Missing.ofLoss (direction : Direction) (loss : Loss) : Missing :=
  ⟨direction, loss.path, loss.value⟩

/-- The direction, the route and the value itself. -/
def Missing.text (missing : Missing) : String :=
  missing.direction.text ++ " " ++ missing.path.text ++ "=" ++ missing.value.text

/-- Everything that a version is missing. -/
structure Shortfall where
  missing : List Missing
  deriving DecidableEq

namespace Shortfall

/-- Nothing missing is no shortfall. -/
def ofList? (missing : List Missing) : Option Shortfall :=
  if missing.isEmpty then none else some ⟨missing⟩

/-- The missing values between commas. -/
def message (shortfall : Shortfall) : String :=
  "ConversionError: missing fields [" ++
    ", ".intercalate (shortfall.missing.map Missing.text) ++ "]"

/-- A shortfall inside a longer message, where none has a sign of its own. -/
def optionText : Option Shortfall → String
  | some shortfall => shortfall.message
  | none => "<nil>"

end Shortfall

end Triversion
