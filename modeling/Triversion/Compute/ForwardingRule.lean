import Triversion.Compute.Member
import Triversion.Graph.Node

/-!
Forwarding rules, which send the traffic for an IP address to a target.

The address may refer to another resource by URL, and the target must if it is set.
-/

namespace Triversion

/-- A stable forwarding rule. -/
structure ForwardingRule where
  name : String
  description : String
  ipAddress : String
  ipProtocol : String
  loadBalancingScheme : String
  network : String
  portRange : String
  ports : List String
  target : String
  labels : Labels
  selfLink : String
  nullFields : List String
  forceSendFields : List String
  deriving DecidableEq

/-- A record in which nothing is set. -/
def ForwardingRule.initial : ForwardingRule where
  name := ""
  description := ""
  ipAddress := ""
  ipProtocol := ""
  loadBalancingScheme := ""
  network := ""
  portRange := ""
  ports := []
  target := ""
  labels := Labels.empty
  selfLink := ""
  nullFields := []
  forceSendFields := []

/-- The members in declaration order. -/
def ForwardingRule.members : List (Member ForwardingRule) := [
  .text "Name" (·.name) fun x v => { x with name := v },
  .text "Description" (·.description) fun x v => { x with description := v },
  .text "IPAddress" (·.ipAddress) fun x v => { x with ipAddress := v },
  .text "IPProtocol" (·.ipProtocol) fun x v => { x with ipProtocol := v },
  .text "LoadBalancingScheme" (·.loadBalancingScheme) fun x v =>
    { x with loadBalancingScheme := v },
  .text "Network" (·.network) fun x v => { x with network := v },
  .text "PortRange" (·.portRange) fun x v => { x with portRange := v },
  .texts "Ports" (·.ports) fun x v => { x with ports := v },
  .text "Target" (·.target) fun x v => { x with target := v },
  .labels "Labels" (·.labels) fun x v => { x with labels := v },
  .text "SelfLink" (·.selfLink) fun x v => { x with selfLink := v },
  .texts "NullFields" (·.nullFields) fun x v => { x with nullFields := v },
  .texts "ForceSendFields" (·.forceSendFields) fun x v => { x with forceSendFields := v }]

/-- How the record is written and rebuilt. -/
def ForwardingRule.codec : Codec ForwardingRule :=
  Member.codec "ForwardingRule" .initial members

/-- A beta forwarding rule, which can restrict the source addresses. -/
structure BetaForwardingRule where
  name : String
  description : String
  ipAddress : String
  ipProtocol : String
  loadBalancingScheme : String
  network : String
  portRange : String
  ports : List String
  sourceIpRanges : List String
  target : String
  labels : Labels
  selfLink : String
  nullFields : List String
  forceSendFields : List String
  deriving DecidableEq

/-- A record in which nothing is set. -/
def BetaForwardingRule.initial : BetaForwardingRule where
  name := ""
  description := ""
  ipAddress := ""
  ipProtocol := ""
  loadBalancingScheme := ""
  network := ""
  portRange := ""
  ports := []
  sourceIpRanges := []
  target := ""
  labels := Labels.empty
  selfLink := ""
  nullFields := []
  forceSendFields := []

/-- The members in declaration order. -/
def BetaForwardingRule.members : List (Member BetaForwardingRule) := [
  .text "Name" (·.name) fun x v => { x with name := v },
  .text "Description" (·.description) fun x v => { x with description := v },
  .text "IPAddress" (·.ipAddress) fun x v => { x with ipAddress := v },
  .text "IPProtocol" (·.ipProtocol) fun x v => { x with ipProtocol := v },
  .text "LoadBalancingScheme" (·.loadBalancingScheme) fun x v =>
    { x with loadBalancingScheme := v },
  .text "Network" (·.network) fun x v => { x with network := v },
  .text "PortRange" (·.portRange) fun x v => { x with portRange := v },
  .texts "Ports" (·.ports) fun x v => { x with ports := v },
  .texts "SourceIpRanges" (·.sourceIpRanges) fun x v => { x with sourceIpRanges := v },
  .text "Target" (·.target) fun x v => { x with target := v },
  .labels "Labels" (·.labels) fun x v => { x with labels := v },
  .text "SelfLink" (·.selfLink) fun x v => { x with selfLink := v },
  .texts "NullFields" (·.nullFields) fun x v => { x with nullFields := v },
  .texts "ForceSendFields" (·.forceSendFields) fun x v => { x with forceSendFields := v }]

/-- How the record is written and rebuilt. -/
def BetaForwardingRule.codec : Codec BetaForwardingRule :=
  Member.codec "BetaForwardingRule" .initial members

/-- An alpha forwarding rule, which can also be reached from other regions. -/
structure AlphaForwardingRule where
  name : String
  description : String
  allowPscGlobalAccess : Bool
  ipAddress : String
  ipProtocol : String
  loadBalancingScheme : String
  network : String
  portRange : String
  ports : List String
  sourceIpRanges : List String
  target : String
  labels : Labels
  selfLink : String
  nullFields : List String
  forceSendFields : List String
  deriving DecidableEq

/-- A record in which nothing is set. -/
def AlphaForwardingRule.initial : AlphaForwardingRule where
  name := ""
  description := ""
  allowPscGlobalAccess := false
  ipAddress := ""
  ipProtocol := ""
  loadBalancingScheme := ""
  network := ""
  portRange := ""
  ports := []
  sourceIpRanges := []
  target := ""
  labels := Labels.empty
  selfLink := ""
  nullFields := []
  forceSendFields := []

/-- The members in declaration order. -/
def AlphaForwardingRule.members : List (Member AlphaForwardingRule) := [
  .text "Name" (·.name) fun x v => { x with name := v },
  .text "Description" (·.description) fun x v => { x with description := v },
  .flag "AllowPscGlobalAccess" (·.allowPscGlobalAccess) fun x v =>
    { x with allowPscGlobalAccess := v },
  .text "IPAddress" (·.ipAddress) fun x v => { x with ipAddress := v },
  .text "IPProtocol" (·.ipProtocol) fun x v => { x with ipProtocol := v },
  .text "LoadBalancingScheme" (·.loadBalancingScheme) fun x v =>
    { x with loadBalancingScheme := v },
  .text "Network" (·.network) fun x v => { x with network := v },
  .text "PortRange" (·.portRange) fun x v => { x with portRange := v },
  .texts "Ports" (·.ports) fun x v => { x with ports := v },
  .texts "SourceIpRanges" (·.sourceIpRanges) fun x v => { x with sourceIpRanges := v },
  .text "Target" (·.target) fun x v => { x with target := v },
  .labels "Labels" (·.labels) fun x v => { x with labels := v },
  .text "SelfLink" (·.selfLink) fun x v => { x with selfLink := v },
  .texts "NullFields" (·.nullFields) fun x v => { x with nullFields := v },
  .texts "ForceSendFields" (·.forceSendFields) fun x v => { x with forceSendFields := v }]

/-- How the record is written and rebuilt. -/
def AlphaForwardingRule.codec : Codec AlphaForwardingRule :=
  Member.codec "AlphaForwardingRule" .initial members

/-- The representation of a forwarding rule in a version. -/
@[reducible] def ForwardingRuleOf : Version → Type
  | .stable => ForwardingRule
  | .alpha => AlphaForwardingRule
  | .beta => BetaForwardingRule

/-- A field that ought to refer to another resource and does not. -/
structure InvalidReference where
  field : String
  fault : Fault
  deriving DecidableEq

/-- The explanation shown for a reference that cannot be read. -/
def InvalidReference.message (invalid : InvalidReference) : String :=
  "Invalid reference in " ++ invalid.field ++ ": " ++ invalid.fault.message

namespace ForwardingRule

/-- The kind of resource in identities and URLs. -/
def collection : String :=
  "forwardingRules"

/-- How each version of a forwarding rule is written and rebuilt. -/
def codecOf : (version : Version) → Codec (ForwardingRuleOf version)
  | .stable => ForwardingRule.codec
  | .alpha => AlphaForwardingRule.codec
  | .beta => BetaForwardingRule.codec

/-- The server sets the link. -/
def policy : Policy :=
  Policy.initial.declare (Path.root.field "SelfLink") .outputOnly

/-- Forwarding rules, whose fields all match by name. -/
def kind : Kind ForwardingRuleOf Unit where
  codec := codecOf
  policy _ := policy
  exclusions := Exclusions.none
  hook _ _ dest state := HookRun.idle dest state

/-- A new forwarding rule with nothing set but its name. -/
def create (id : Identity) : Except Fault (Resource ForwardingRuleOf Unit) :=
  Resource.new kind id ()

/-- The identity of a forwarding rule in a region. -/
def regionalId (project region name : String) : Identity :=
  ⟨project, collection, name, .regional region⟩

/-- The address and the target of a rule in any version. -/
def endpoints : (version : Version) → ForwardingRuleOf version → String × String
  | .stable, x => (x.ipAddress, x.target)
  | .alpha, x => (x.ipAddress, x.target)
  | .beta, x => (x.ipAddress, x.target)

/-- The reference that a field holds. -/
def reference (field url : String) : Except InvalidReference Reference :=
  match Identity.read url with
  | .ok target => .ok ⟨Path.root.field field, target⟩
  | .error fault => .error ⟨field, fault⟩

/-- Whether an address names a resource instead of being an address itself. -/
def namesResource (address : String) : Bool :=
  (Identity.fromMarker address.toList).isSome

/-- The references of a rule with this address and this target. -/
def referencesOf (address target : String) : Except InvalidReference (List Reference) := do
  -- The first reference that cannot be read decides, and the address comes first.
  let fromAddress ←
    if namesResource address then (reference "IPAddress" address).map fun found => [found]
    else .ok []
  let fromTarget ←
    if target.isEmpty then .ok [] else (reference "Target" target).map fun found => [found]
  return fromAddress ++ fromTarget

/-- The references of a frozen rule, read from the version that represents it. -/
def references (frozen : Frozen ForwardingRuleOf) : Except InvalidReference (List Reference) :=
  let (address, target) := endpoints frozen.version (frozen.values.get frozen.version)
  referencesOf address target

end ForwardingRule

end Triversion
