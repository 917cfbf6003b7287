import Triversion.Compute.Labels
import Triversion.Resource.Basic

/-! The nodes that a planner fills in: what is to happen to a resource and what it refers to. -/

namespace Triversion

/-- What is to happen to a resource. -/
inductive Operation where
  | create
  | delete
  | recreate
  | update
  | nothing
  | unknown
  deriving DecidableEq

/-- The word for an operation. -/
def Operation.text : Operation → String
  | .create => "create"
  | .delete => "delete"
  | .recreate => "recreate"
  | .update => "update"
  | .nothing => "nothing"
  | .unknown => "unknown"

/-- A reference from a field of one resource to another resource. -/
structure Reference where
  path : Path
  target : Identity
  deriving DecidableEq

/-- A resource as a planner sees it. -/
structure Node where
  id : Identity
  operation : Operation
  labels : Labels
  /-- The references, or why they could not be determined. -/
  references : Except String (List Reference)
  /-- What went wrong when the resource was read. -/
  failure : Option String

namespace Node

/-- A node without labels, references and failure. -/
def plain (id : Identity) (operation : Operation) : Node :=
  ⟨id, operation, Labels.empty, .ok [], none⟩

/-- The node with one more label. -/
def withLabel (node : Node) (key text : String) : Node :=
  { node with labels := node.labels.put key text }

/-- The node with the given references, or the reason why there are none. -/
def withReferences (node : Node) (references : Except String (List Reference)) : Node :=
  { node with references := references }

/-- The node with a failure. -/
def withFailure (node : Node) (failure : String) : Node :=
  { node with failure := some failure }

/-- The node of a frozen resource, labelled with the version that represents it. -/
def ofFrozen {R : Version → Type} (frozen : Frozen R) (operation : Operation) : Node :=
  (plain frozen.id operation).withLabel "version" frozen.version.text

end Node

end Triversion
