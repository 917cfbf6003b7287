import Triversion.Compute.Address
import Triversion.Compute.ForwardingRule
import Triversion.Graph.Dot

/-! A small plan: an address that uses a feature of the alpha version, and a rule pointing at it. -/

namespace Triversion.Demo

/-- The project of the plan. -/
def project : String :=
  "my-project"

/-- The region of the plan. -/
def region : String :=
  "us-central1"

/-- The ways in which making the plan can fail. -/
inductive PlanFault where
  | resource (fault : Fault)
  | graph (fault : GraphFault)

/-- The explanation shown for a plan that cannot be made. -/
def PlanFault.message : PlanFault → String
  | .resource fault => fault.message
  | .graph fault => fault.message

/-- The resource after a step that must succeed. -/
def proceed {α : Type} (step : α × Except Fault Unit) : Except PlanFault α :=
  match step with
  | (next, .ok ()) => .ok next
  | (_, .error fault) => .error (.resource fault)

/-- The frozen form of a resource, which must exist. -/
def freeze {R : Version → Type} {σ : Type} (kind : Kind R σ) (resource : Resource R σ) :
    Except PlanFault (Frozen R) :=
  (resource.freeze kind).2.mapError .resource

/-- The identity of the address. -/
def addressId : Identity :=
  Address.regionalId project region "vip"

/-- What the stable version of the address is given. -/
def editAddress (address : Address) : Address :=
  { address with
    description := "frontend VIP"
    addressType := "EXTERNAL"
    purpose := "SHARED_LOADBALANCER_VIP" }

/-- The frozen address. -/
def address : Except PlanFault (Frozen AddressOf) := do
  let created ← (Address.create addressId).mapError .resource
  let described ← proceed (created.edit Address.kind .stable editAddress)
  let flagged ← proceed (described.edit Address.kind .alpha fun x : AlphaAddress =>
    { x with featureFlag := true })
  freeze Address.kind flagged

/-- What the stable version of the rule is given. -/
def editRule (rule : ForwardingRule) : ForwardingRule :=
  { rule with
    ipAddress := addressId.relativeName
    ipProtocol := "TCP"
    portRange := "443" }

/-- The frozen rule. -/
def rule : Except PlanFault (Frozen ForwardingRuleOf) := do
  let created ←
    (ForwardingRule.create (ForwardingRule.regionalId project region "frontend")).mapError
      .resource
  let described ← proceed (created.edit ForwardingRule.kind .stable editRule)
  freeze ForwardingRule.kind described

/-- The plan as a document. -/
def document : Except PlanFault String := do
  let address ← address
  let rule ← rule
  let first ← (Graph.empty.add (Node.ofFrozen address .create)).mapError .graph
  let references := (ForwardingRule.references rule).mapError InvalidReference.message
  let second ←
    (first.add ((Node.ofFrozen rule .update).withReferences references)).mapError .graph
  second.checkReferences.mapError .graph
  return Dot.ofGraph second

/-- What is printed, what is complained about, and the exit code. -/
structure Report where
  output : String
  complaint : String
  code : Nat

/-- The report of making the plan. -/
def report : Report :=
  match document with
  | .ok text => ⟨text, "", 0⟩
  | .error fault => ⟨"", "Error: " ++ fault.message ++ "\n", 1⟩

end Triversion.Demo
