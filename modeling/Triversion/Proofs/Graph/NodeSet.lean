import Triversion.Graph.Basic
import Triversion.Proofs.Identity.Order

/-!
A graph is the set of the nodes that were added to it.

The order in which nodes were added makes no difference, a node of an identity that is taken is
refused and changes nothing, and checking the references finds the first that leads nowhere.
-/

namespace Triversion.Graph

/-- The graph after a node was offered to it: a node that is refused changes nothing. -/
def offer (graph : Graph) (node : Node) : Graph :=
  (graph.add node).toOption.getD graph

/-- The graph after nodes were offered to it one after another. -/
def offerAll (graph : Graph) (nodes : List Node) : Graph :=
  nodes.foldl offer graph

/-- Whether a reference leads to a node of the graph. -/
def Leads (graph : Graph) (reference : Reference) : Prop :=
  ∃ node ∈ graph.nodes, node.id = reference.target

/-- Whether every reference of a node leads somewhere, as far as its references are known. -/
def LeadsOn (graph : Graph) (node : Node) : Prop :=
  ∀ references, node.references = .ok references → ∀ reference ∈ references,
    graph.Leads reference

section Adding

variable {graph other : Graph} {node : Node} {nodes : List Node}

/-- A graph is its nodes. -/
theorem ext_nodes (same : graph.nodes = other.nodes) : graph = other := by
  cases graph
  cases other
  simp_all

/-- Two graphs of the same nodes are the same, since their order is that of the identities. -/
theorem eq_of_perm (same : graph.nodes.Perm other.nodes) : graph = other := by
  refine ext_nodes (same.eq_of_pairwise (fun a b _ _ before after => ?_) graph.ascending
    other.ascending)
  -- No identity stands in front of itself.
  exact absurd (before.trans after) (Ranked.not_precedes_self a.id)

/-- Inserting a node leaves it and the others, in some order. -/
theorem insert_perm (node : Node) (nodes : List Node) : (insert node nodes).Perm (node :: nodes) := by
  induction nodes with
  | nil => exact .refl _
  | cons first rest ih =>
    rw [insert]
    split
    · exact (ih.cons first).trans (.swap node first rest)
    · exact .refl _

/-- An identity is taken exactly if a node of the graph has it. -/
theorem has_iff {id : Identity} : graph.has id = true ↔ ∃ node ∈ graph.nodes, node.id = id := by
  simp [has]

/-- A node of an identity that is free is added to the others. -/
theorem add_of_free (free : ∀ other ∈ graph.nodes, other.id ≠ node.id) :
    ∃ next, graph.add node = .ok next ∧ next.nodes.Perm (node :: graph.nodes) := by
  have notTaken : ¬ graph.has node.id = true := by
    rw [has_iff]
    rintro ⟨other, member, same⟩
    exact free other member same
  exact ⟨_, by rw [add, dif_neg notTaken], insert_perm node graph.nodes⟩

/-- A node is refused as a duplicate exactly if its identity is taken. -/
theorem add_eq_duplicate_iff : graph.add node = .error (.duplicate node.id) ↔
    ∃ other ∈ graph.nodes, other.id = node.id := by
  rw [← has_iff, add]
  split
  · next taken => simp [taken]
  · next free => simp [free]

/-- Adding nodes of identities that are free and different succeeds and adds exactly these. -/
theorem foldlM_add (distinct : (nodes.map (·.id)).Nodup)
    (free : ∀ node ∈ nodes, ∀ other ∈ graph.nodes, other.id ≠ node.id) :
    ∃ next, nodes.foldlM add graph = .ok next ∧ next.nodes.Perm (nodes ++ graph.nodes) := by
  induction nodes generalizing graph with
  | nil => exact ⟨graph, rfl, .refl _⟩
  | cons node rest ih =>
    obtain ⟨fresh, distinct⟩ := List.nodup_cons.1 distinct
    obtain ⟨next, added, nodes⟩ := add_of_free (free node List.mem_cons_self)
    -- The identities that follow are free of the new one as well.
    have later : ∀ later ∈ rest, ∀ other ∈ next.nodes, other.id ≠ later.id := by
      intro later member other inside same
      rcases List.mem_cons.1 (nodes.mem_iff.1 inside) with rfl | before
      · exact fresh (List.mem_map.2 ⟨later, member, same.symm⟩)
      · exact free later (List.mem_cons_of_mem _ member) other before same
    obtain ⟨last, ends, all⟩ := ih distinct later
    refine ⟨last, ?_, ?_⟩
    · rw [List.foldlM_cons, added]
      exact ends
    · exact all.trans ((nodes.append_left rest).trans List.perm_middle)

end Adding

section Offering

variable {graph : Graph} {node : Node} {id : Identity}

/-- A node is found under an identity exactly if it is the one of the graph that has it. -/
theorem get?_eq_some_iff : graph.get? id = some node ↔ node ∈ graph.nodes ∧ node.id = id := by
  rw [get?, List.find?_eq_some_iff_append]
  constructor
  · rintro ⟨named, before, after, split, -⟩
    exact ⟨by simp [split], by simpa using named⟩
  · rintro ⟨member, rfl⟩
    obtain ⟨before, after, split⟩ := List.append_of_mem member
    refine ⟨by simp, before, after, split, fun other inside => ?_⟩
    -- What stands in front of the node has an earlier identity.
    have ascending := graph.ascending
    rw [split] at ascending
    have earlier := (List.pairwise_append.1 ascending).2.2 other inside node List.mem_cons_self
    have different : other.id ≠ node.id := fun same =>
      Ranked.not_precedes_self _ (same ▸ earlier)
    simpa using different

/-- An identity has no node exactly if it is free. -/
theorem get?_eq_none_iff : graph.get? id = none ↔ ∀ node ∈ graph.nodes, node.id ≠ id := by
  simp [get?]

/-- A node that is refused leaves the graph as it was. -/
theorem offer_of_taken (taken : ∃ other ∈ graph.nodes, other.id = node.id) :
    graph.offer node = graph := by
  rw [offer, add_eq_duplicate_iff.2 taken]
  rfl

/-- After an offer an identity that was taken has its old node, and a free one may have the new. -/
theorem get?_offer (graph : Graph) (node : Node) (id : Identity) :
    (graph.offer node).get? id = (graph.get? id).or (if node.id = id then some node else none) := by
  by_cases taken : ∃ other ∈ graph.nodes, other.id = node.id
  · rw [offer_of_taken taken]
    split
    · next same =>
      -- The identity of the refused node has a node already.
      obtain ⟨other, member, named⟩ := taken
      rw [get?_eq_some_iff.2 ⟨member, named.trans same⟩]
      rfl
    · simp
  · have free : ∀ other ∈ graph.nodes, other.id ≠ node.id := fun other member same =>
      taken ⟨other, member, same⟩
    obtain ⟨next, added, nodes⟩ := add_of_free free
    have grown : graph.offer node = next := by
      rw [offer, added]
      rfl
    rw [grown]
    -- The new graph holds the old nodes and the new one, each under its own identity.
    ext found
    rw [get?_eq_some_iff, nodes.mem_iff, List.mem_cons, Option.or_eq_some_iff, get?_eq_some_iff,
      get?_eq_none_iff]
    constructor
    · rintro ⟨rfl | member, rfl⟩
      · exact .inr ⟨free, by simp⟩
      · exact .inl ⟨member, rfl⟩
    · rintro (⟨member, rfl⟩ | ⟨-, new⟩)
      · exact ⟨.inr member, rfl⟩
      · split at new
        · next same =>
          obtain rfl := Option.some.inj new
          exact ⟨.inl rfl, same⟩
        · contradiction

/-- After offers an identity has its old node or else the first one that was offered under it. -/
theorem get?_offerAll (graph : Graph) (nodes : List Node) (id : Identity) :
    (graph.offerAll nodes).get? id =
      (graph.get? id).or (nodes.find? fun node => node.id = id) := by
  induction nodes generalizing graph with
  | nil => simp [offerAll]
  | cons node rest ih =>
    have step : graph.offerAll (node :: rest) = (graph.offer node).offerAll rest := rfl
    rw [step, ih, get?_offer, Option.or_assoc, List.find?_cons]
    split <;> simp_all

end Offering

section Checking

variable {graph : Graph} {node : Node} {reference : Reference} {fault : GraphFault}

/-- A reference leads somewhere exactly if its target is taken. -/
theorem has_target_iff : graph.has reference.target = true ↔ graph.Leads reference :=
  has_iff

/-- Nothing is found wrong with a node exactly if its references lead on. -/
theorem danglingIn?_eq_none_iff : graph.danglingIn? node = none ↔ graph.LeadsOn node := by
  -- References that are not known are none to look at.
  rw [danglingIn?, List.findSome?_eq_none_iff, LeadsOn, referencesOf]
  cases node.references with
  | error reason => simp
  | ok references => simp [has_target_iff]

/-- What is found wrong with a node is its first reference that leads nowhere. -/
theorem danglingIn?_eq_some_iff : graph.danglingIn? node = some fault ↔
    ∃ front reference rest, node.references = .ok (front ++ reference :: rest) ∧
      (∀ earlier ∈ front, graph.Leads earlier) ∧ ¬ graph.Leads reference ∧
      fault = .dangling node.id reference.path reference.target := by
  rw [danglingIn?, List.findSome?_eq_some_iff, referencesOf]
  cases node.references with
  | error reason => simp
  | ok references =>
    -- Of a single reference a fault is found exactly if it leads nowhere.
    have single : ∀ reference : Reference,
        (if graph.has reference.target then none
          else some (GraphFault.dangling node.id reference.path reference.target)) = some fault ↔
        ¬ graph.Leads reference ∧
          fault = .dangling node.id reference.path reference.target := by
      intro reference
      rw [← has_target_iff]
      split
      · next leads => simp [leads]
      · next astray => simp [astray, eq_comm]
    have passed : ∀ reference : Reference,
        (if graph.has reference.target then none
          else some (GraphFault.dangling node.id reference.path reference.target)) = none ↔
        graph.Leads reference := by
      simp [has_target_iff]
    simp only [single, passed, Except.ok.injEq]
    refine exists₃_congr fun front reference rest => ?_
    constructor
    · rintro ⟨split, ⟨astray, same⟩, earlier⟩
      exact ⟨split, earlier, astray, same⟩
    · rintro ⟨split, earlier, astray, same⟩
      exact ⟨split, ⟨astray, same⟩, earlier⟩

/-- The references pass exactly if those of every node lead on. -/
theorem checkReferences_eq_ok_iff : graph.checkReferences = .ok () ↔
    ∀ node ∈ graph.nodes, graph.LeadsOn node := by
  simp only [← danglingIn?_eq_none_iff, ← List.findSome?_eq_none_iff, checkReferences]
  cases graph.nodes.findSome? graph.danglingIn? <;> simp

/-- The fault is that of the first node with a reference that leads nowhere. -/
theorem checkReferences_eq_error_iff : graph.checkReferences = .error fault ↔
    ∃ before node after, graph.nodes = before ++ node :: after ∧
      (∀ earlier ∈ before, graph.LeadsOn earlier) ∧ graph.danglingIn? node = some fault := by
  have found : graph.checkReferences = .error fault ↔
      graph.nodes.findSome? graph.danglingIn? = some fault := by
    rw [checkReferences]
    cases graph.nodes.findSome? graph.danglingIn? <;> simp
  rw [found, List.findSome?_eq_some_iff]
  refine exists₃_congr fun before node after => and_congr_right fun _ => ?_
  simp only [danglingIn?_eq_none_iff, and_comm]

end Checking

/--
A graph is a set of nodes.

Nodes of different identities can be added in any order and give one and the same graph, which
holds each of them once, in ascending order of the identities; so its document and the check of its
references are the same too. A node of an identity that is taken is refused as a duplicate, and
whatever is offered later finds the graph as it was: under each identity stands the first node that
was offered. The references pass exactly if every known reference leads to a node of the graph, and
else the fault is that of the first one, in the order of nodes and then of references, that does not.
-/
theorem nodes_form_a_set :
    (∀ nodes : List Node, (nodes.map (·.id)).Nodup → ∃ graph : Graph,
      (∀ order : List Node, order.Perm nodes → order.foldlM add empty = .ok graph) ∧
      graph.nodes.Perm nodes ∧ graph.nodes.Pairwise fun a b => a.id.Before b.id) ∧
    (∀ (graph : Graph) (node : Node), (∃ other ∈ graph.nodes, other.id = node.id) →
      graph.add node = .error (.duplicate node.id) ∧
      ∀ later, graph.offerAll (node :: later) = graph.offerAll later) ∧
    (∀ (nodes : List Node) (id : Identity),
      (empty.offerAll nodes).get? id = nodes.find? fun node => node.id = id) ∧
    ∀ graph : Graph,
      (graph.checkReferences = .ok () ↔ ∀ node ∈ graph.nodes, ∀ references,
        node.references = .ok references → ∀ reference ∈ references,
          ∃ target ∈ graph.nodes, target.id = reference.target) ∧
      ∀ fault, graph.checkReferences = .error fault ↔
        ∃ before node after front reference rest,
          graph.nodes = before ++ node :: after ∧
          (∀ earlier ∈ before, graph.LeadsOn earlier) ∧
          node.references = .ok (front ++ reference :: rest) ∧
          (∀ earlier ∈ front, graph.Leads earlier) ∧ ¬ graph.Leads reference ∧
          fault = .dangling node.id reference.path reference.target := by
  refine ⟨fun nodes distinct => ?_, fun graph node taken => ?_, fun nodes id => ?_,
    fun graph => ⟨checkReferences_eq_ok_iff, fun fault => ?_⟩⟩
  · have free (order : List Node) :
        ∀ node ∈ order, ∀ other ∈ empty.nodes, other.id ≠ node.id := by
      simp [empty]
    obtain ⟨graph, added, all⟩ := foldlM_add distinct (free nodes)
    refine ⟨graph, fun order same => ?_, by simpa [empty] using all, ?_⟩
    · -- In any other order the same nodes are added, so the same graph comes out.
      obtain ⟨other, ends, others⟩ :=
        foldlM_add ((same.map _).nodup_iff.2 distinct) (free order)
      rw [ends, eq_of_perm (others.trans ((same.append_right _).trans all.symm))]
    · exact graph.ascending.imp Identity.precedes_iff.1
  · exact ⟨add_eq_duplicate_iff.2 taken, fun later => by
      rw [offerAll, List.foldl_cons, offer_of_taken taken, offerAll]⟩
  · rw [get?_offerAll]
    rfl
  · rw [checkReferences_eq_error_iff]
    constructor
    · rintro ⟨before, node, after, split, earlier, found⟩
      obtain ⟨front, reference, rest, known, passed, astray, same⟩ :=
        danglingIn?_eq_some_iff.1 found
      exact ⟨before, node, after, front, reference, rest, split, earlier, known, passed, astray,
        same⟩
    · rintro ⟨before, node, after, front, reference, rest, split, earlier, known, passed, astray,
        same⟩
      exact ⟨before, node, after, split, earlier,
        danglingIn?_eq_some_iff.2 ⟨front, reference, rest, known, passed, astray, same⟩⟩

/-- An address that is to be created, in some scope. -/
def plannedAddress (scope : Scope) : Node :=
  .plain ⟨"project", "addresses", "vip", scope⟩ .create

/-- Addresses of one name in three scopes, the last scope first. -/
def plannedAddresses : List Node :=
  [plannedAddress (.zonal "a"), plannedAddress (.regional "b"), plannedAddress .global]

/-- In both directions three addresses give one graph, in which the global one comes first. -/
theorem nodes_form_a_set_of_addresses :
    (plannedAddresses.map (·.id)).Nodup ∧ plannedAddresses.reverse.Perm plannedAddresses ∧
    ∃ graph : Graph, plannedAddresses.foldlM add empty = .ok graph ∧
      plannedAddresses.reverse.foldlM add empty = .ok graph ∧
      graph.nodes = plannedAddresses.reverse ∧
      graph.add (plannedAddress .global) = .error (.duplicate (plannedAddress .global).id) := by
  have distinct : (plannedAddresses.map (·.id)).Nodup := by decide
  obtain ⟨orders, duplicates, -⟩ := nodes_form_a_set
  obtain ⟨graph, made, all, -⟩ := orders plannedAddresses distinct
  have forward := made plannedAddresses (.refl _)
  refine ⟨distinct, List.reverse_perm _, graph, forward, made _ (List.reverse_perm _), ?_, ?_⟩
  · obtain ⟨computed, ends, nodes⟩ : ∃ computed : Graph,
        plannedAddresses.foldlM add empty = .ok computed ∧
        computed.nodes = plannedAddresses.reverse := ⟨_, rfl, rfl⟩
    rw [← nodes, Except.ok.inj (forward.symm.trans ends)]
  · refine (duplicates graph _ ⟨plannedAddress .global, ?_, rfl⟩).1
    exact all.mem_iff.2 (by simp [plannedAddresses])

end Triversion.Graph
