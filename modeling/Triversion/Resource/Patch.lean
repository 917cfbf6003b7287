import Triversion.Resource.Basic

/-! Changing a representation by assignments to its written form. -/

namespace Triversion

/-- A value for the part at the end of a route. -/
structure Assignment where
  path : Path
  value : Value
  deriving DecidableEq

/-- Makes assignments one after another. -/
def assignAll? (assignments : List Assignment) (v : Value) : Option Value :=
  assignments.foldlM (fun v assignment => Value.assign? assignment.path assignment.value v) v

/-- Writes a representation, makes assignments, and rebuilds it. -/
def Codec.patch? {α : Type} (codec : Codec α) (assignments : List Assignment) (x : α) :
    Option α := do
  let v ← (codec.encode x).toOption
  codec.decode (← assignAll? assignments v)

/-- What a patching hook does in one direction. -/
inductive PatchHook where
  | idle
  | fail (reason : String)
  | patch (assignments : List Assignment)

/-- A kind whose hooks fail or assign to the destination as told; what cannot be assigned stays. -/
def Kind.patching {R : Version → Type} (codec : (version : Version) → Codec (R version))
    (policy : Version → Policy) (exclusions : Exclusions) (hooks : Direction → PatchHook) :
    Kind R Unit where
  codec := codec
  policy := policy
  exclusions := exclusions
  hook direction _ dest state :=
    match hooks direction with
    | .idle => HookRun.idle dest state
    | .fail reason => ⟨dest, state, .failed reason⟩
    | .patch assignments =>
      HookRun.idle (((codec direction.dest).patch? assignments dest).getD dest) state

end Triversion
