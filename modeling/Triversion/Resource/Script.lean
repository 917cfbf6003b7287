import Triversion.Resource.Basic

/-! Bridging hooks that follow a script, for observing which copies run and for making them fail. -/

namespace Triversion

/-- A hook that is to run next, and the failure it reports if any. -/
structure Expectation where
  direction : Direction
  failure : Option String
  deriving DecidableEq

/-- The hooks still expected, and the directions of all hooks that ran, in order. -/
structure Script where
  expected : List Expectation
  calls : List Direction
  deriving DecidableEq

namespace Script

/-- Nothing is expected and nothing ran. -/
def empty : Script :=
  ⟨[], []⟩

/-- Expects one more hook behind all others. -/
def expect (script : Script) (expectation : Expectation) : Script :=
  { script with expected := script.expected ++ [expectation] }

/-- A hook runs: it is recorded, and uses up the next expectation even if it does not meet it. -/
def call (script : Script) (direction : Direction) : Script × Verdict :=
  let calls := script.calls ++ [direction]
  match script.expected with
  | [] =>
    (⟨[], calls⟩,
      .outOfScript ("Unexpected hook " ++ direction.text ++ ", no expectations left"))
  | next :: rest =>
    -- Meeting the expectation or not, it is used up.
    if next.direction = direction then
      match next.failure with
      | none => (⟨rest, calls⟩, .passed)
      | some reason => (⟨rest, calls⟩, .failed reason)
    else
      (⟨rest, calls⟩,
        .outOfScript
          ("Unexpected hook " ++ direction.text ++ ", expected " ++ next.direction.text))

/-- The script is played out if nothing is expected any more. -/
def checkFinished (script : Script) : Except Fault Unit :=
  if script.expected.isEmpty then .ok ()
  else
    .error (.outOfScript
      ("Not all expectations were met. " ++ wholeText script.expected.length ++ " remaining"))

end Script

/-- A kind whose hooks follow a script and never touch the destination. -/
def Kind.scripted {R : Version → Type} (codec : (version : Version) → Codec (R version))
    (policy : Version → Policy) (exclusions : Exclusions) : Kind R Script where
  codec := codec
  policy := policy
  exclusions := exclusions
  hook direction _ dest script :=
    let (next, verdict) := script.call direction
    ⟨dest, next, verdict⟩

end Triversion
