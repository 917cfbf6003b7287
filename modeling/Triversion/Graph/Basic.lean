import Triversion.Graph.Node

/-! Graphs of nodes, each identity once, in the order of their identities. -/

namespace Triversion

/-- What can be wrong with a graph. -/
inductive GraphFault where
  | duplicate (id : Identity)
  | dangling (source : Identity) (path : Path) (target : Identity)
  deriving DecidableEq

/-- The explanation shown for a fault. -/
def GraphFault.message : GraphFault → String
  | .duplicate id => "Duplicate node: " ++ id.text
  | .dangling source path target =>
    "Dangling reference: " ++ source.text ++ path.text ++ " -> " ++ target.text

/-- Nodes in ascending order of their identities. -/
structure Graph where
  nodes : List Node
  ascending : nodes.Pairwise fun a b => Ranked.Precedes a.id b.id

namespace Graph

/-- No nodes. -/
def empty : Graph :=
  ⟨[], List.Pairwise.nil⟩

/-- Puts a node in front of the first one with a later identity. -/
def insert (node : Node) : List Node → List Node
  | [] => [node]
  | other :: rest =>
    if Ranked.rank node.id other.id = .gt then other :: insert node rest
    else node :: other :: rest

/-- Inserting puts in exactly one node. -/
theorem mem_insert {node other : Node} {nodes : List Node} :
    other ∈ insert node nodes ↔ other = node ∨ other ∈ nodes := by
  -- The induction follows the search for the place of the node.
  induction nodes with
  | nil => simp [insert]
  | cons first rest ih =>
    rw [insert]
    split
    · simp only [List.mem_cons, ih]
      constructor
      · rintro (rfl | rfl | inside)
        · exact .inr (.inl rfl)
        · exact .inl rfl
        · exact .inr (.inr inside)
      · rintro (rfl | rfl | inside)
        · exact .inr (.inl rfl)
        · exact .inl rfl
        · exact .inr (.inr inside)
    · simp

/-- Inserting a node of a new identity keeps the order. -/
theorem ascending_insert {node : Node} {nodes : List Node}
    (ascending : nodes.Pairwise fun a b => Ranked.Precedes a.id b.id)
    (new : ∀ other ∈ nodes, other.id ≠ node.id) :
    (insert node nodes).Pairwise fun a b => Ranked.Precedes a.id b.id := by
  -- The node stands behind those it passed and in front of the one it stopped at.
  induction nodes with
  | nil => simp [insert]
  | cons first rest ih =>
    obtain ⟨before, later⟩ := List.pairwise_cons.1 ascending
    rw [insert]
    split
    · next behind =>
      refine List.pairwise_cons.2 ⟨fun other inside => ?_, ih later fun other inside =>
        new other (List.mem_cons_of_mem _ inside)⟩
      rcases mem_insert.1 inside with rfl | inside
      · exact Ranked.rank_gt_iff.1 behind
      · exact before other inside
    · next ahead =>
      -- The two identities differ, so the new one stands in front of the first.
      have first_later : Ranked.Precedes node.id first.id := by
        rcases Ranked.trichotomy node.id first.id with smaller | same | larger
        · exact smaller
        · exact absurd same.symm (new first List.mem_cons_self)
        · exact absurd (Ranked.rank_gt_iff.2 larger) ahead
      refine List.pairwise_cons.2 ⟨fun other inside => ?_, ascending⟩
      rcases List.mem_cons.1 inside with rfl | inside
      · exact first_later
      · exact first_later.trans (before other inside)

/-- The node of an identity. -/
def get? (graph : Graph) (id : Identity) : Option Node :=
  graph.nodes.find? fun node => node.id = id

/-- Whether some node has an identity. -/
def has (graph : Graph) (id : Identity) : Bool :=
  graph.nodes.any fun node => node.id = id

/-- Adds a node, unless its identity is taken. -/
def add (graph : Graph) (node : Node) : Except GraphFault Graph :=
  if taken : graph.has node.id = true then .error (.duplicate node.id)
  else
    .ok ⟨insert node graph.nodes, ascending_insert graph.ascending fun other inside same => by
      simp only [has, List.any_eq_true, decide_eq_true_eq, not_exists, not_and] at taken
      exact taken other inside same⟩

/-- The references of a node, none if they could not be determined. -/
def referencesOf (node : Node) : List Reference :=
  -- A node with unknown references leads nowhere, which is no fault of the graph.
  match node.references with
  | .ok references => references
  | .error _ => []

/-- The first reference of a node to an identity that no node has. -/
def danglingIn? (graph : Graph) (node : Node) : Option GraphFault :=
  (referencesOf node).findSome? fun reference =>
    if graph.has reference.target then none
    else some (.dangling node.id reference.path reference.target)

/-- Checks that every reference leads to a node of the graph. -/
def checkReferences (graph : Graph) : Except GraphFault Unit :=
  match graph.nodes.findSome? graph.danglingIn? with
  | some fault => .error fault
  | none => .ok ()

end Graph

end Triversion
