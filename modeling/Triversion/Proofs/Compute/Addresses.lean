import Triversion.Compute.Address
import Triversion.Proofs.Resource.Agreement

/-! Addresses are records, and their purpose is one field under two names. -/

namespace Triversion

open Member in
/-- The members of a stable address are apart from each other. -/
theorem Address.lawful : Member.Lawful Address.members Address.initial where
  distinct := by decide
  independent := by
    simp only [Address.members, List.pairwise_cons, List.forall_mem_cons, List.Pairwise.nil,
      and_true, List.not_mem_nil, false_imp_iff, implies_true]
    and_intros <;> first
      | exact keeps_text fun _ _ => rfl
      | exact keeps_texts fun _ _ => rfl
      | exact keeps_labels fun _ _ => rfl
  plain := by
    simp only [Address.members, List.forall_mem_cons, List.not_mem_nil, false_imp_iff,
      implies_true, and_true]
    and_intros <;> first
      | exact isPlain_text (fun _ _ => rfl) rfl
      | exact isPlain_texts (fun _ _ => rfl) rfl
      | exact isPlain_labels (fun _ _ => rfl) rfl

open Member in
/-- The members of a beta address are apart from each other. -/
theorem BetaAddress.lawful : Member.Lawful BetaAddress.members BetaAddress.initial where
  distinct := by decide
  independent := by
    simp only [BetaAddress.members, List.pairwise_cons, List.forall_mem_cons, List.Pairwise.nil,
      and_true, List.not_mem_nil, false_imp_iff, implies_true]
    and_intros <;> first
      | exact keeps_text fun _ _ => rfl
      | exact keeps_texts fun _ _ => rfl
      | exact keeps_labels fun _ _ => rfl
  plain := by
    simp only [BetaAddress.members, List.forall_mem_cons, List.not_mem_nil, false_imp_iff,
      implies_true, and_true]
    and_intros <;> first
      | exact isPlain_text (fun _ _ => rfl) rfl
      | exact isPlain_texts (fun _ _ => rfl) rfl
      | exact isPlain_labels (fun _ _ => rfl) rfl

open Member in
/-- The members of an alpha address are apart from each other. -/
theorem AlphaAddress.lawful : Member.Lawful AlphaAddress.members AlphaAddress.initial where
  distinct := by decide
  independent := by
    simp only [AlphaAddress.members, List.pairwise_cons, List.forall_mem_cons, List.Pairwise.nil,
      and_true, List.not_mem_nil, false_imp_iff, implies_true]
    and_intros <;> first
      | exact keeps_text fun _ _ => rfl
      | exact keeps_flag fun _ _ => rfl
      | exact keeps_texts fun _ _ => rfl
      | exact keeps_labels fun _ _ => rfl
  plain := by
    simp only [AlphaAddress.members, List.forall_mem_cons, List.not_mem_nil, false_imp_iff,
      implies_true, and_true]
    and_intros <;> first
      | exact isPlain_text (fun _ _ => rfl) rfl
      | exact isPlain_flag (fun _ _ => rfl) rfl
      | exact isPlain_texts (fun _ _ => rfl) rfl
      | exact isPlain_labels (fun _ _ => rfl) rfl

/-- The fields that every version of an address has, under whatever name. -/
structure Address.Shared where
  name : String
  description : String
  address : String
  addressType : String
  ipVersion : String
  networkTier : String
  purpose : String
  subnetwork : String
  labels : Labels
  selfLink : String
  status : String
  deriving DecidableEq

namespace Address

/-- The sorts of the fields in a version. -/
def sortsIn : Version → Sorts
  | .stable => Member.sorts members initial
  | .alpha => Member.sorts AlphaAddress.members AlphaAddress.initial
  | .beta => Member.sorts BetaAddress.members BetaAddress.initial

/-- The shared fields of an address. -/
def shared : (version : Version) → AddressOf version → Shared
  | .stable, x =>
    ⟨x.name, x.description, x.address, x.addressType, x.ipVersion, x.networkTier, x.purpose,
      x.subnetwork, x.labels, x.selfLink, x.status⟩
  | .alpha, x =>
    ⟨x.name, x.description, x.address, x.addressType, x.ipVersion, x.networkTier,
      x.addressPurpose, x.subnetwork, x.labels, x.selfLink, x.status⟩
  | .beta, x =>
    ⟨x.name, x.description, x.address, x.addressType, x.ipVersion, x.networkTier, x.purpose,
      x.subnetwork, x.labels, x.selfLink, x.status⟩

/-- The shared fields that are matched by name, as they are written. -/
def Shared.matched (x : Shared) : Fields := [
  ("Name", .string x.name), ("Description", .string x.description),
  ("Address", .string x.address), ("AddressType", .string x.addressType),
  ("IpVersion", .string x.ipVersion), ("NetworkTier", .string x.networkTier),
  ("Subnetwork", .string x.subnetwork), ("Labels", x.labels.toValue),
  ("SelfLink", .string x.selfLink), ("Status", .string x.status)]

/-- What the purpose is called in a version. -/
def purposeField : Version → String
  | .stable | .beta => "Purpose"
  | .alpha => "AddressPurpose"

theorem sortsIn_matching (version other : Version) :
    (sortsIn version).Matching (sortsIn other) := by
  constructor <;> cases version <;> cases other <;> decide +kernel

/-- An address in any version is a record. -/
theorem isRecord (version : Version) : (codecOf version).IsRecord (sortsIn version) := by
  cases version with
  | stable => exact lawful.isRecord "Address"
  | alpha => exact AlphaAddress.lawful.isRecord "AlphaAddress"
  | beta => exact BetaAddress.lawful.isRecord "BetaAddress"

/-- Another purpose changes the field that holds it and nothing else. -/
theorem fieldAt_withPurpose (version : Version) (x : AddressOf version) (purpose : String)
    {name : String} (notPurpose : name ≠ "Purpose") (notAddressPurpose : name ≠ "AddressPurpose") :
    (codecOf version).fieldAt name (withPurpose version x purpose) =
      (codecOf version).fieldAt name x := by
  cases version with
  | stable =>
    refine lawful.fieldAt_congr "Address" ?_
    simp only [members, List.forall_mem_cons, List.not_mem_nil, false_imp_iff, implies_true,
      and_true]
    and_intros <;> first
      | exact fun _ => rfl
      | exact fun called => absurd called.symm notPurpose
  | alpha =>
    refine AlphaAddress.lawful.fieldAt_congr "AlphaAddress" ?_
    simp only [AlphaAddress.members, List.forall_mem_cons, List.not_mem_nil, false_imp_iff,
      implies_true, and_true]
    and_intros <;> first
      | exact fun _ => rfl
      | exact fun called => absurd called.symm notAddressPurpose
  | beta =>
    refine BetaAddress.lawful.fieldAt_congr "BetaAddress" ?_
    simp only [BetaAddress.members, List.forall_mem_cons, List.not_mem_nil, false_imp_iff,
      implies_true, and_true]
    and_intros <;> first
      | exact fun _ => rfl
      | exact fun called => absurd called.symm notPurpose

/-- Addresses are records, and their hook touches no field that is matched. -/
theorem kind_ofRecords : kind.OfRecords sortsIn where
  record := isRecord
  matching := sortsIn_matching
  named version := by cases version <;> decide +kernel
  bridged direction source dest state name isMatched := by
    have notPurpose : name ≠ "Purpose" := by
      intro same
      subst same
      exact absurd isMatched (by decide)
    have notAddressPurpose : name ≠ "AddressPurpose" := by
      intro same
      subst same
      exact absurd isMatched (by decide)
    simp only [kind, carryPurpose]
    split
    · exact fieldAt_withPurpose direction.dest dest _ notPurpose notAddressPurpose
    · rfl

/-- Every matched field is written as it is. -/
theorem fieldAt_matched (version : Version) (x : AddressOf version) :
    ∀ entry ∈ (shared version x).matched, (codecOf version).fieldAt entry.1 x = some entry.2 := by
  cases version with
  | stable =>
    simp only [Shared.matched, List.forall_mem_cons, List.not_mem_nil, false_imp_iff,
      implies_true, and_true, codecOf, codec, lawful.fieldAt_codec]
    and_intros <;> rfl
  | alpha =>
    simp only [Shared.matched, List.forall_mem_cons, List.not_mem_nil, false_imp_iff,
      implies_true, and_true, codecOf, AlphaAddress.codec, AlphaAddress.lawful.fieldAt_codec]
    and_intros <;> rfl
  | beta =>
    simp only [Shared.matched, List.forall_mem_cons, List.not_mem_nil, false_imp_iff,
      implies_true, and_true, codecOf, BetaAddress.codec, BetaAddress.lawful.fieldAt_codec]
    and_intros <;> rfl

/-- The purpose is written under the name that the version has for it. -/
theorem fieldAt_purposeField (version : Version) (x : AddressOf version) :
    (codecOf version).fieldAt (purposeField version) x = some (.string (purposeIn version x)) := by
  cases version with
  | stable => exact (lawful.fieldAt_codec "Address" _ x).trans rfl
  | alpha => exact (AlphaAddress.lawful.fieldAt_codec "AlphaAddress" _ x).trans rfl
  | beta => exact (BetaAddress.lawful.fieldAt_codec "BetaAddress" _ x).trans rfl

end Address

end Triversion
