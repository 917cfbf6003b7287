import Triversion.Compute.Member
import Triversion.Resource.Basic

/-!
Reserved IP addresses.

The alpha version names the purpose differently, so the copy leaves it alone and a hook carries it.
-/

namespace Triversion

/-- A stable address. -/
structure Address where
  name : String
  description : String
  address : String
  addressType : String
  ipVersion : String
  networkTier : String
  purpose : String
  subnetwork : String
  labels : Labels
  selfLink : String
  status : String
  nullFields : List String
  forceSendFields : List String
  deriving DecidableEq

/-- A record in which nothing is set. -/
def Address.initial : Address where
  name := ""
  description := ""
  address := ""
  addressType := ""
  ipVersion := ""
  networkTier := ""
  purpose := ""
  subnetwork := ""
  labels := Labels.empty
  selfLink := ""
  status := ""
  nullFields := []
  forceSendFields := []

/-- The members in declaration order. -/
def Address.members : List (Member Address) := [
  .text "Name" (·.name) fun x v => { x with name := v },
  .text "Description" (·.description) fun x v => { x with description := v },
  .text "Address" (·.address) fun x v => { x with address := v },
  .text "AddressType" (·.addressType) fun x v => { x with addressType := v },
  .text "IpVersion" (·.ipVersion) fun x v => { x with ipVersion := v },
  .text "NetworkTier" (·.networkTier) fun x v => { x with networkTier := v },
  .text "Purpose" (·.purpose) fun x v => { x with purpose := v },
  .text "Subnetwork" (·.subnetwork) fun x v => { x with subnetwork := v },
  .labels "Labels" (·.labels) fun x v => { x with labels := v },
  .text "SelfLink" (·.selfLink) fun x v => { x with selfLink := v },
  .text "Status" (·.status) fun x v => { x with status := v },
  .texts "NullFields" (·.nullFields) fun x v => { x with nullFields := v },
  .texts "ForceSendFields" (·.forceSendFields) fun x v => { x with forceSendFields := v }]

/-- How the record is written and rebuilt. -/
def Address.codec : Codec Address :=
  Member.codec "Address" .initial members

/-- A beta address, which knows the kind of IPv6 endpoint. -/
structure BetaAddress where
  name : String
  description : String
  address : String
  addressType : String
  ipVersion : String
  ipv6EndpointType : String
  networkTier : String
  purpose : String
  subnetwork : String
  labels : Labels
  selfLink : String
  status : String
  nullFields : List String
  forceSendFields : List String
  deriving DecidableEq

/-- A record in which nothing is set. -/
def BetaAddress.initial : BetaAddress where
  name := ""
  description := ""
  address := ""
  addressType := ""
  ipVersion := ""
  ipv6EndpointType := ""
  networkTier := ""
  purpose := ""
  subnetwork := ""
  labels := Labels.empty
  selfLink := ""
  status := ""
  nullFields := []
  forceSendFields := []

/-- The members in declaration order. -/
def BetaAddress.members : List (Member BetaAddress) := [
  .text "Name" (·.name) fun x v => { x with name := v },
  .text "Description" (·.description) fun x v => { x with description := v },
  .text "Address" (·.address) fun x v => { x with address := v },
  .text "AddressType" (·.addressType) fun x v => { x with addressType := v },
  .text "IpVersion" (·.ipVersion) fun x v => { x with ipVersion := v },
  .text "Ipv6EndpointType" (·.ipv6EndpointType) fun x v => { x with ipv6EndpointType := v },
  .text "NetworkTier" (·.networkTier) fun x v => { x with networkTier := v },
  .text "Purpose" (·.purpose) fun x v => { x with purpose := v },
  .text "Subnetwork" (·.subnetwork) fun x v => { x with subnetwork := v },
  .labels "Labels" (·.labels) fun x v => { x with labels := v },
  .text "SelfLink" (·.selfLink) fun x v => { x with selfLink := v },
  .text "Status" (·.status) fun x v => { x with status := v },
  .texts "NullFields" (·.nullFields) fun x v => { x with nullFields := v },
  .texts "ForceSendFields" (·.forceSendFields) fun x v => { x with forceSendFields := v }]

/-- How the record is written and rebuilt. -/
def BetaAddress.codec : Codec BetaAddress :=
  Member.codec "BetaAddress" .initial members

/-- An alpha address, which has another name for the purpose and a feature of its own. -/
structure AlphaAddress where
  name : String
  description : String
  address : String
  addressPurpose : String
  addressType : String
  featureFlag : Bool
  ipVersion : String
  ipv6EndpointType : String
  networkTier : String
  subnetwork : String
  labels : Labels
  selfLink : String
  status : String
  nullFields : List String
  forceSendFields : List String
  deriving DecidableEq

/-- A record in which nothing is set. -/
def AlphaAddress.initial : AlphaAddress where
  name := ""
  description := ""
  address := ""
  addressPurpose := ""
  addressType := ""
  featureFlag := false
  ipVersion := ""
  ipv6EndpointType := ""
  networkTier := ""
  subnetwork := ""
  labels := Labels.empty
  selfLink := ""
  status := ""
  nullFields := []
  forceSendFields := []

/-- The members in declaration order. -/
def AlphaAddress.members : List (Member AlphaAddress) := [
  .text "Name" (·.name) fun x v => { x with name := v },
  .text "Description" (·.description) fun x v => { x with description := v },
  .text "Address" (·.address) fun x v => { x with address := v },
  .text "AddressPurpose" (·.addressPurpose) fun x v => { x with addressPurpose := v },
  .text "AddressType" (·.addressType) fun x v => { x with addressType := v },
  .flag "FeatureFlag" (·.featureFlag) fun x v => { x with featureFlag := v },
  .text "IpVersion" (·.ipVersion) fun x v => { x with ipVersion := v },
  .text "Ipv6EndpointType" (·.ipv6EndpointType) fun x v => { x with ipv6EndpointType := v },
  .text "NetworkTier" (·.networkTier) fun x v => { x with networkTier := v },
  .text "Subnetwork" (·.subnetwork) fun x v => { x with subnetwork := v },
  .labels "Labels" (·.labels) fun x v => { x with labels := v },
  .text "SelfLink" (·.selfLink) fun x v => { x with selfLink := v },
  .text "Status" (·.status) fun x v => { x with status := v },
  .texts "NullFields" (·.nullFields) fun x v => { x with nullFields := v },
  .texts "ForceSendFields" (·.forceSendFields) fun x v => { x with forceSendFields := v }]

/-- How the record is written and rebuilt. -/
def AlphaAddress.codec : Codec AlphaAddress :=
  Member.codec "AlphaAddress" .initial members

/-- The representation of an address in a version. -/
@[reducible] def AddressOf : Version → Type
  | .stable => Address
  | .alpha => AlphaAddress
  | .beta => BetaAddress

namespace Address

/-- The kind of resource in identities and URLs. -/
def collection : String :=
  "addresses"

/-- The purposes that an address can have; the empty text means unset. -/
def purposes : List String :=
  ["", "DNS_RESOLVER", "GCE_ENDPOINT", "IPSEC_INTERCONNECT", "NAT_AUTO",
    "PRIVATE_SERVICE_CONNECT", "SERVERLESS", "SHARED_LOADBALANCER_VIP", "VPC_PEERING"]

/-- The explanation shown for a purpose that does not exist. -/
def unknownPurpose (purpose : String) : String :=
  "Unknown address purpose: " ++ purpose

/-- Carries a purpose that exists into the destination; any other one fails and carries nothing. -/
def carryPurpose {δ : Type} (purpose : String) (dest : δ) (carry : δ → String → δ) :
    HookRun δ Unit :=
  if purposes.contains purpose then ⟨carry dest purpose, (), .passed⟩
  else ⟨dest, (), .failed (unknownPurpose purpose)⟩

/-- The purpose of an address, whatever the version calls it. -/
def purposeIn : (version : Version) → AddressOf version → String
  | .stable, x => x.purpose
  | .alpha, x => x.addressPurpose
  | .beta, x => x.purpose

/-- An address with another purpose, whatever the version calls it. -/
def withPurpose : (version : Version) → AddressOf version → String → AddressOf version
  | .stable, x, purpose => { x with purpose := purpose }
  | .alpha, x, purpose => { x with addressPurpose := purpose }
  | .beta, x, purpose => { x with purpose := purpose }

/-- How each version of an address is written and rebuilt. -/
def codecOf : (version : Version) → Codec (AddressOf version)
  | .stable => Address.codec
  | .alpha => AlphaAddress.codec
  | .beta => BetaAddress.codec

/-- The server sets the link and the status, and an empty network tier means nothing. -/
def policy : Policy :=
  ((Policy.initial.declare (Path.root.field "SelfLink") .outputOnly).declare
    (Path.root.field "Status") .outputOnly).declare (Path.root.field "NetworkTier") .nonZero

/-- Addresses, whose purpose is carried by a hook under both of its names. -/
def kind : Kind AddressOf Unit where
  codec := codecOf
  policy _ := policy
  -- Neither name may be matched, since the two versions would not find each other's.
  exclusions :=
    (Exclusions.none.excludePath (Path.root.field "Purpose")).excludePath
      (Path.root.field "AddressPurpose")
  hook direction source dest _ :=
    carryPurpose (purposeIn direction.source source) dest (withPurpose direction.dest)

/-- A new address with nothing set but its name. -/
def create (id : Identity) : Except Fault (Resource AddressOf Unit) :=
  Resource.new kind id ()

/-- The identity of a global address. -/
def globalId (project name : String) : Identity :=
  ⟨project, collection, name, .global⟩

/-- The identity of an address in a region. -/
def regionalId (project region name : String) : Identity :=
  ⟨project, collection, name, .regional region⟩

end Address

end Triversion
