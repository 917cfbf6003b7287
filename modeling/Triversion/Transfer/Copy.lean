import Triversion.Codec
import Triversion.Transfer.Maps
import Triversion.Transfer.Merge
import Triversion.Transfer.Salvage

/-!
Copying one representation into another of a different type.

Both are written as values, the source is merged into the destination, and the destination is
rebuilt. Values that find no place are reported, never an error.
-/

namespace Triversion

mutual
/-- The fields of a candidate that did not survive its rebuild, from a route on. -/
def forgotten (maps : List Path) (settled : Value) (path : Path) : Value → List Loss
  | .object fields =>
    match settled with
    -- Where the kinds differ nothing is compared.
    | .object kept => forgottenInFields maps (isMapAt maps path) kept path fields
    | _ => []
  | .array items =>
    match settled with
    | .array kept => forgottenInItems maps kept path 0 items
    | _ => []
  | _ => []
termination_by structural candidate => candidate

/-- The fields of one object that did not survive; a map's entries are named by their keys. -/
def forgottenInFields (maps : List Path) (isMap : Bool) (kept : Fields) (path : Path) :
    List (String × Value) → List Loss
  | [] => []
  | (name, v) :: rest =>
    let here := if isMap then path.key name else path.field name
    let first :=
      if isBookkeeping name then []
      else
        -- A kept field is looked into, a forgotten one is lost as a whole.
        match Keyed.get? name kept with
        | some settled => forgotten maps settled here v
        | none => lossOf here v
    first ++ forgottenInFields maps isMap kept path rest
termination_by structural candidate => candidate

/-- What did not survive inside the items that both sequences have. -/
def forgottenInItems (maps : List Path) (kept : List Value) (path : Path) (i : Nat) :
    List Value → List Loss
  | [] => []
  | v :: rest =>
    match kept with
    | [] => []
    | settled :: others =>
      forgotten maps settled (path.index i) v ++ forgottenInItems maps others path (i + 1) rest
termination_by structural candidate => candidate
end

/-- The end of a copy: the new destination or a failure, and what was lost in either case. -/
structure Outcome (δ : Type) where
  result : Except CopyFault δ
  losses : List Loss

namespace Transfer

variable {σ δ : Type}

/-- Whether the destination type accepts a value and can write what it rebuilt. -/
def accepts (codec : Codec δ) (v : Value) : Bool :=
  (codec.roundTrip v).isSome

/-- The source fields merged into the destination fields, with the maps of the destination type. -/
def merge (exclusions : Exclusions) (codec : Codec δ) (fields given : Fields) : Merged Fields :=
  mergeObjects ⟨exclusions, mapPaths codec.roundTrip fields⟩ Path.root fields given

/-- The routes that count as maps once the merge is done. -/
def knownMaps (codec : Codec δ) (fields : Fields) (journal : Journal) : List Path :=
  mapPaths codec.roundTrip fields ++ journal.maps

/-- The object that the destination is rebuilt from, and what was lost on the way to it. -/
def candidate (exclusions : Exclusions) (codec : Codec δ) (fields given : Fields) :
    Value × List Loss :=
  let merged := merge exclusions codec fields given
  let whole := Value.object merged.result
  -- Most copies fit at once; only a refused candidate is worth taking apart.
  if (codec.decode whole).isSome then (whole, merged.journal.losses)
  else
    let (settled, losses) := salvage (accepts codec) merged.journal.writes whole
    (settled, merged.journal.losses ++ losses)

/-- Copies the written fields of a source into the written fields of a destination. -/
def copyFields (exclusions : Exclusions) (codec : Codec δ) (fields given : Fields) : Outcome δ :=
  let (whole, losses) := candidate exclusions codec fields given
  match codec.rebuild whole with
  | .error fault => ⟨.error fault, losses⟩
  | .ok rebuilt =>
    match codec.write rebuilt with
    | .error fault => ⟨.error fault, losses⟩
    -- What the rebuilt destination writes shows which fields the type did not keep.
    | .ok settled =>
      let maps := knownMaps codec fields (merge exclusions codec fields given).journal
      ⟨.ok rebuilt, losses ++ forgotten maps settled Path.root whole⟩

/-- Copies every field of a source that fits into a destination, which stays if the copy fails. -/
def copy (exclusions : Exclusions) (source : Codec σ) (codec : Codec δ) (src : σ) (dest : δ) :
    Outcome δ :=
  match source.write src with
  | .error fault => ⟨.error fault, []⟩
  | .ok given =>
    match codec.write dest with
    | .error fault => ⟨.error fault, []⟩
    | .ok there =>
      match there, given with
      | .object fields, .object given => copyFields exclusions codec fields given
      -- If neither side is a struct, the source is the one to blame.
      | _, .object _ => ⟨.error (.notAStruct codec.name), []⟩
      | _, _ => ⟨.error (.notAStruct source.name), []⟩

end Transfer

end Triversion
