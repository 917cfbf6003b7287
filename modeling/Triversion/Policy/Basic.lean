import Triversion.Bookkeeping

/-! The policy of a version: which role each of its fields plays. -/

namespace Triversion

/-- How a field is treated. -/
inductive Role where
  /-- Users set it as they like. -/
  | ordinary
  /-- It is not part of the resource itself, and its content is never looked at. -/
  | system
  /-- The server sets it, callers must not. -/
  | outputOnly
  /-- Its zero value means nothing and is never sent on purpose. -/
  | nonZero
  /-- Its zero value means something and is sent on purpose. -/
  | allowZero
  deriving DecidableEq

/-- Roles declared for routes without positions, oldest declaration first. -/
structure Policy where
  declared : List (Path × Role)
  deriving DecidableEq

namespace Policy

/-- Declares the role of a route, in place of any earlier declaration for it. -/
def declare (policy : Policy) (path : Path) (role : Role) : Policy :=
  -- The earlier declaration goes, so that a later one always stands behind all others.
  let path := path.withoutPositions
  ⟨(policy.declared.filter fun entry => entry.1 ≠ path) ++ [(path, role)]⟩

/-- The policy that only sets the bookkeeping lists of the whole value apart. -/
def initial : Policy :=
  let empty : Policy := ⟨[]⟩
  (empty.declare (Path.root.field nullFields) .system).declare
    (Path.root.field forceSendFields) .system

/-- The policy after a sequence of declarations. -/
def ofList (declarations : List (Role × Path)) : Policy :=
  declarations.foldl (fun policy entry => policy.declare entry.2 entry.1) initial

/-- Of two declarations the one for the longer route, and the later one of equally long routes. -/
def longer (best : Option (Path × Role)) (entry : Path × Role) : Option (Path × Role) :=
  match best with
  | none => some entry
  | some best => if best.1.length ≤ entry.1.length then some entry else some best

/-- A field plays the role declared for the longest route that it begins with. -/
def roleAt (policy : Policy) (path : Path) : Role :=
  -- Declarations cover every element of a sequence, so positions do not count.
  let path := path.withoutPositions
  let matching := policy.declared.filter fun entry => path.startsWith entry.1
  match matching.foldl longer none with
  | some (_, role) => role
  | none => .ordinary

end Policy

end Triversion
