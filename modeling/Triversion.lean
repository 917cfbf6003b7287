import Triversion.Catalog
import Triversion.Main
import Triversion.Resource.Patch
import Triversion.Resource.Script
import Triversion.Value.Reader
import Triversion.Written.Domain
import Triversion.Proofs.Resource.History
import Triversion.Proofs.Resource.Propagation
import Triversion.Proofs.Keyed
import Triversion.Proofs.Transfer.Merge
import Triversion.Proofs.Compute.Record
import Triversion.Proofs.Transfer.Records
import Triversion.Proofs.Policy.Records
import Triversion.Proofs.Resource.Agreement
import Triversion.Proofs.Compute.Addresses
import Triversion.Proofs.Compute.ForwardingRules
import Triversion.Proofs.Compute.VersionChoice
import Triversion.Proofs.Value.At
import Triversion.Proofs.Value.Scalars
import Triversion.Proofs.Transfer.Writes
import Triversion.Proofs.Transfer.Scalars
import Triversion.Proofs.Transfer.Salvage
import Triversion.Proofs.Transfer.Forgotten
import Triversion.Proofs.Transfer.NoSilentLoss
import Triversion.Proofs.Transfer.Acceptance
import Triversion.Proofs.Transfer.Replacement
import Triversion.Proofs.Resource.Replacement
import Triversion.Proofs.Transfer.Reports
import Triversion.Proofs.Transfer.Idempotence
import Triversion.Proofs.Resource.Freezing
import Triversion.Proofs.Transfer.Naming
import Triversion.Proofs.Transfer.MapKeys
import Triversion.Proofs.Resource.Quiet
import Triversion.Proofs.Transfer.OneByOne
import Triversion.Proofs.Transfer.Flat
import Triversion.Proofs.Policy.Breaches
import Triversion.Proofs.Transfer.Untouched
import Triversion.Proofs.Shape.Fields
import Triversion.Proofs.Transfer.Arrival
import Triversion.Proofs.Transfer.Lengths
import Triversion.Proofs.Transfer.SameKeys
import Triversion.Proofs.Policy.Effect
import Triversion.Proofs.Policy.Audit
import Triversion.Proofs.Policy.Compliance
import Triversion.Proofs.Path.Grammar
import Triversion.Proofs.Policy.MapEntries
import Triversion.Proofs.Identity.Urls
import Triversion.Proofs.Graph.NodeSet
import Triversion.Proofs.Graph.Document
import Triversion.Proofs.Compute.References
import Triversion.Proofs.Transfer.WriteLog
import Triversion.Proofs.Transfer.MapSearch
import Triversion.Proofs.Resource.Replay
