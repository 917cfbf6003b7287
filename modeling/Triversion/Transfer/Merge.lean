import Triversion.Transfer.Exclusions
import Triversion.Transfer.Journal

/-!
Merging a source value into a destination value.

Fields match by name. A null destination takes whatever the source holds, a null source clears the
destination, scalars must be of one kind, sequences and maps are replaced item by item.
-/

namespace Triversion

/-- The names of a list that are fields of the struct itself and no bookkeeping. -/
def keptNames (known : List String) (names : List Value) : List Value :=
  names.filter fun name =>
    match name with
    | .string name => known.contains name && !isBookkeeping name
    | _ => false

/-- A bookkeeping list of the destination takes the source's names that the destination knows. -/
def mergeList (known : List String) (given : Fields) (fields : Fields) (list : String) : Fields :=
  -- A list that either side lacks, or that the source does not hold as a sequence, is left alone.
  if Keyed.has list fields then
    match Keyed.get? list given with
    | some (.array names) => Keyed.put list (.array (keptNames known names)) fields
    | _ => fields
  else fields

/-- Both bookkeeping lists are merged after all other fields. -/
def mergeLists (known : List String) (given : Fields) (fields : Fields) : Fields :=
  bookkeepingLists.foldl (mergeList known given) fields

/-- A merged struct is finished by its bookkeeping lists, which never count as written. -/
def withLists (fields given : Fields) (merged : Merged Fields) : Merged Fields :=
  merged.map (mergeLists (fields.map (·.1)) given)

/-- What a merge goes by: the fields to leave alone, and the routes known to be maps. -/
structure MergeRules where
  exclusions : Exclusions
  maps : List Path

/-- Whether a route, which is not the root, is known to be a map. -/
def isMapAt (maps : List Path) (path : Path) : Bool :=
  !path.isEmpty && maps.contains path.withoutPositions

/-- A source value that a null destination takes as it is, without the excluded fields. -/
def takeWhole (rules : MergeRules) (path : Path) (given : Value) : Merged Value :=
  ⟨rules.exclusions.strip path given, .wrote path (.restore .null)⟩

/-- A null source clears the destination. -/
def clearTo (there : Value) (path : Path) : Merged Value :=
  -- Null over null changes nothing, so there is nothing to take back.
  if there.isNull then ⟨.null, .empty⟩ else ⟨.null, .wrote path (.restore there.blank)⟩

/-- A source value of the wrong kind is lost, and the destination is reset. -/
def rejectAt (there : Value) (path : Path) (given : Value) : Merged Value :=
  ⟨there.blank, .lost path given⟩

/-- A scalar replaces a scalar of its kind. -/
def mergeScalar (rules : MergeRules) (there : Value) (path : Path) (given : Value) :
    Merged Value :=
  -- Null has no kind of its own and takes anything.
  if there.isNull then takeWhole rules path given
  else if there.scalarFits given then ⟨given, .wrote path (.restore there.blank)⟩
  else rejectAt there path given

/-- Source entries that fill an empty map, each stripped. -/
def wholeEntries (exclusions : Exclusions) (path : Path) (given : Fields) : Fields :=
  given.map fun entry => (entry.1, exclusions.strip (path.key entry.1) entry.2)

mutual
/-- Merges a source value into what stands at a route of the destination. -/
def mergeInto (rules : MergeRules) (there : Value) (path : Path) : Value → Merged Value
  | .null => clearTo there path
  | .bool b => mergeScalar rules there path (.bool b)
  | .number n => mergeScalar rules there path (.number n)
  | .string s => mergeScalar rules there path (.string s)
  | .array given =>
    match there with
    | .null => takeWhole rules path (.array given)
    | .array [] =>
      -- Without an item there is no shape to merge into, so the items are taken as they are.
      ⟨.array (rules.exclusions.stripItems path 0 given), .wrote path .emptySequence⟩
    | .array (first :: _) =>
      -- The blank of the first item is the shape of every item.
      (mergeItems rules first.blank path 0 given).map .array
    | other => rejectAt other path (.array given)
  | .object given =>
    match there with
    | .null => takeWhole rules path (.object given)
    | .object [] =>
      -- An object without fields can only be a map, and nothing tells the shape of its values.
      ⟨.object (wholeEntries rules.exclusions path given),
        .mapAt path ++ .wrote path .emptyMap⟩
    | .object ((name, first) :: others) =>
      if isMapAt rules.maps path then
        -- The blank of the first value is the shape of every value.
        let merged := mergeEntries rules first.blank path given
        ⟨.object merged.result, .mapAt path ++ merged.journal⟩
      else
        let fields := (name, first) :: others
        (withLists fields given (mergeFields rules path fields given)).map .object
    | other => rejectAt other path (.object given)
termination_by structural given => given

/-- Merges source fields one after another into the fields of a struct. -/
def mergeFields (rules : MergeRules) (path : Path) (fields : Fields) :
    List (String × Value) → Merged Fields
  | [] => ⟨fields, .empty⟩
  | (name, given) :: rest =>
    -- The bookkeeping lists wait until all other fields are merged.
    if isBookkeeping name || rules.exclusions.excludes name (path.field name) then
      mergeFields rules path fields rest
    else
      match Keyed.get? name fields with
      | some there =>
        let first := mergeInto rules there (path.field name) given
        let others := mergeFields rules path (Keyed.put name first.result fields) rest
        ⟨others.result, first.journal ++ others.journal⟩
      | none =>
        -- The destination type decides about a new field when it is rebuilt.
        let whole := rules.exclusions.strip (path.field name) given
        let others := mergeFields rules path (Keyed.put name whole fields) rest
        ⟨others.result, .wrote (path.field name) .remove ++ others.journal⟩
termination_by structural given => given

/-- Merges every source entry into a copy of the shape of the map's values. -/
def mergeEntries (rules : MergeRules) (shape : Value) (path : Path) :
    List (String × Value) → Merged Fields
  | [] => ⟨[], .empty⟩
  | (k, given) :: rest =>
    let first := mergeInto rules shape (path.key k) given
    let others := mergeEntries rules shape path rest
    ⟨(k, first.result) :: others.result, first.journal ++ others.journal⟩
termination_by structural given => given

/-- Merges every source item from a position on into a copy of the shape of the items. -/
def mergeItems (rules : MergeRules) (shape : Value) (path : Path) (i : Nat) :
    List Value → Merged (List Value)
  | [] => ⟨[], .empty⟩
  | given :: rest =>
    let first := mergeInto rules shape (path.index i) given
    let others := mergeItems rules shape path (i + 1) rest
    ⟨first.result :: others.result, first.journal ++ others.journal⟩
termination_by structural given => given
end

/-- Merges the fields of a source struct into those of a destination struct. -/
def mergeObjects (rules : MergeRules) (path : Path) (fields given : Fields) : Merged Fields :=
  withLists fields given (mergeFields rules path fields given)

end Triversion
