import Triversion.Compute.ForwardingRule
import Triversion.Proofs.Resource.Agreement

/-! Forwarding rules are records, and all their fields are matched by name. -/

namespace Triversion

open Member in
/-- The members of a stable forwarding rule are apart from each other. -/
theorem ForwardingRule.lawful :
    Member.Lawful ForwardingRule.members ForwardingRule.initial where
  distinct := by decide
  independent := by
    simp only [ForwardingRule.members, List.pairwise_cons, List.forall_mem_cons,
      List.Pairwise.nil, and_true, List.not_mem_nil, false_imp_iff, implies_true]
    and_intros <;> first
      | exact keeps_text fun _ _ => rfl
      | exact keeps_texts fun _ _ => rfl
      | exact keeps_labels fun _ _ => rfl
  plain := by
    simp only [ForwardingRule.members, List.forall_mem_cons, List.not_mem_nil,
      false_imp_iff, implies_true, and_true]
    and_intros <;> first
      | exact isPlain_text (fun _ _ => rfl) rfl
      | exact isPlain_texts (fun _ _ => rfl) rfl
      | exact isPlain_labels (fun _ _ => rfl) rfl

open Member in
/-- The members of a beta forwarding rule are apart from each other. -/
theorem BetaForwardingRule.lawful :
    Member.Lawful BetaForwardingRule.members BetaForwardingRule.initial where
  distinct := by decide
  independent := by
    simp only [BetaForwardingRule.members, List.pairwise_cons, List.forall_mem_cons,
      List.Pairwise.nil, and_true, List.not_mem_nil, false_imp_iff, implies_true]
    and_intros <;> first
      | exact keeps_text fun _ _ => rfl
      | exact keeps_texts fun _ _ => rfl
      | exact keeps_labels fun _ _ => rfl
  plain := by
    simp only [BetaForwardingRule.members, List.forall_mem_cons, List.not_mem_nil,
      false_imp_iff, implies_true, and_true]
    and_intros <;> first
      | exact isPlain_text (fun _ _ => rfl) rfl
      | exact isPlain_texts (fun _ _ => rfl) rfl
      | exact isPlain_labels (fun _ _ => rfl) rfl

open Member in
/-- The members of an alpha forwarding rule are apart from each other. -/
theorem AlphaForwardingRule.lawful :
    Member.Lawful AlphaForwardingRule.members AlphaForwardingRule.initial where
  distinct := by decide
  independent := by
    simp only [AlphaForwardingRule.members, List.pairwise_cons, List.forall_mem_cons,
      List.Pairwise.nil, and_true, List.not_mem_nil, false_imp_iff, implies_true]
    and_intros <;> first
      | exact keeps_text fun _ _ => rfl
      | exact keeps_flag fun _ _ => rfl
      | exact keeps_texts fun _ _ => rfl
      | exact keeps_labels fun _ _ => rfl
  plain := by
    simp only [AlphaForwardingRule.members, List.forall_mem_cons, List.not_mem_nil,
      false_imp_iff, implies_true, and_true]
    and_intros <;> first
      | exact isPlain_text (fun _ _ => rfl) rfl
      | exact isPlain_flag (fun _ _ => rfl) rfl
      | exact isPlain_texts (fun _ _ => rfl) rfl
      | exact isPlain_labels (fun _ _ => rfl) rfl

/-- The fields that every version of a forwarding rule has. -/
structure ForwardingRule.Shared where
  name : String
  description : String
  ipAddress : String
  ipProtocol : String
  loadBalancingScheme : String
  network : String
  portRange : String
  ports : List String
  target : String
  labels : Labels
  selfLink : String
  deriving DecidableEq

namespace ForwardingRule

/-- The sorts of the fields in a version. -/
def sortsIn : Version → Sorts
  | .stable => Member.sorts members initial
  | .alpha => Member.sorts AlphaForwardingRule.members AlphaForwardingRule.initial
  | .beta => Member.sorts BetaForwardingRule.members BetaForwardingRule.initial

/-- The shared fields of a forwarding rule. -/
def shared : (version : Version) → ForwardingRuleOf version → Shared
  | .stable, x =>
    ⟨x.name, x.description, x.ipAddress, x.ipProtocol, x.loadBalancingScheme, x.network,
      x.portRange, x.ports, x.target, x.labels, x.selfLink⟩
  | .alpha, x =>
    ⟨x.name, x.description, x.ipAddress, x.ipProtocol, x.loadBalancingScheme, x.network,
      x.portRange, x.ports, x.target, x.labels, x.selfLink⟩
  | .beta, x =>
    ⟨x.name, x.description, x.ipAddress, x.ipProtocol, x.loadBalancingScheme, x.network,
      x.portRange, x.ports, x.target, x.labels, x.selfLink⟩

/-- The shared fields as they are written. -/
def Shared.matched (x : Shared) : Fields := [
  ("Name", .string x.name), ("Description", .string x.description),
  ("IPAddress", .string x.ipAddress), ("IPProtocol", .string x.ipProtocol),
  ("LoadBalancingScheme", .string x.loadBalancingScheme), ("Network", .string x.network),
  ("PortRange", .string x.portRange), ("Ports", Value.strings x.ports),
  ("Target", .string x.target), ("Labels", x.labels.toValue), ("SelfLink", .string x.selfLink)]

theorem sortsIn_matching (version other : Version) :
    (sortsIn version).Matching (sortsIn other) := by
  constructor <;> cases version <;> cases other <;> decide +kernel

/-- A forwarding rule in any version is a record. -/
theorem isRecord (version : Version) : (codecOf version).IsRecord (sortsIn version) := by
  cases version with
  | stable => exact lawful.isRecord "ForwardingRule"
  | alpha => exact AlphaForwardingRule.lawful.isRecord "AlphaForwardingRule"
  | beta => exact BetaForwardingRule.lawful.isRecord "BetaForwardingRule"

/-- Forwarding rules are records, and their hook does nothing. -/
theorem kind_ofRecords : kind.OfRecords sortsIn where
  record := isRecord
  matching := sortsIn_matching
  named version := by cases version <;> decide +kernel
  bridged _ _ _ _ _ _ := rfl

/-- Every shared field is written as it is. -/
theorem fieldAt_matched (version : Version) (x : ForwardingRuleOf version) :
    ∀ entry ∈ (shared version x).matched, (codecOf version).fieldAt entry.1 x = some entry.2 := by
  cases version with
  | stable =>
    simp only [Shared.matched, List.forall_mem_cons, List.not_mem_nil, false_imp_iff,
      implies_true, and_true, codecOf, codec, lawful.fieldAt_codec]
    and_intros <;> rfl
  | alpha =>
    simp only [Shared.matched, List.forall_mem_cons, List.not_mem_nil, false_imp_iff,
      implies_true, and_true, codecOf, AlphaForwardingRule.codec,
      AlphaForwardingRule.lawful.fieldAt_codec]
    and_intros <;> rfl
  | beta =>
    simp only [Shared.matched, List.forall_mem_cons, List.not_mem_nil, false_imp_iff,
      implies_true, and_true, codecOf, BetaForwardingRule.codec,
      BetaForwardingRule.lawful.fieldAt_codec]
    and_intros <;> rfl

end ForwardingRule

end Triversion
