import Triversion.Bookkeeping

/-! What a merge records beside its result: values written, values lost, and maps met on the way. -/

namespace Triversion

/-- How a written value is taken back. -/
inductive Reversal where
  /-- Another value stood here. -/
  | restore (v : Value)
  /-- The object had no such field. -/
  | remove
  /-- A sequence whose items have an unknown shape; it can be written again item by item. -/
  | emptySequence
  /-- A map whose values have an unknown shape; it can be written again entry by entry. -/
  | emptyMap
  deriving DecidableEq

/-- A place that received a source value, and how to take it back. -/
structure Write where
  path : Path
  reversal : Reversal
  deriving DecidableEq

/-- A source value that carries information and has no place in the destination. -/
structure Loss where
  path : Path
  value : Value
  deriving DecidableEq

/-- A value that could not be kept counts as lost only if it carries information. -/
def lossOf (path : Path) (v : Value) : List Loss :=
  if v.isBlank then [] else [⟨path, v⟩]

/-- Writes and losses in the order in which they happened, and the routes of maps. -/
structure Journal where
  writes : List Write
  losses : List Loss
  maps : List Path

namespace Journal

/-- Nothing happened. -/
def empty : Journal :=
  ⟨[], [], []⟩

/-- One value was written. -/
def wrote (path : Path) (reversal : Reversal) : Journal :=
  ⟨[⟨path, reversal⟩], [], []⟩

/-- One value could not be kept. -/
def lost (path : Path) (v : Value) : Journal :=
  ⟨[], lossOf path v, []⟩

/-- One map was replaced. -/
def mapAt (path : Path) : Journal :=
  ⟨[], [], [path.withoutPositions]⟩

instance : Append Journal where
  -- What happened later stands behind what happened earlier, in each of the three lists.
  append earlier later :=
    ⟨earlier.writes ++ later.writes, earlier.losses ++ later.losses, earlier.maps ++ later.maps⟩

@[simp] theorem writes_append (a b : Journal) : (a ++ b).writes = a.writes ++ b.writes :=
  rfl

@[simp] theorem losses_append (a b : Journal) : (a ++ b).losses = a.losses ++ b.losses :=
  rfl

@[simp] theorem maps_append (a b : Journal) : (a ++ b).maps = a.maps ++ b.maps :=
  rfl

end Journal

/-- A merged part of the destination, with the record of how it came about. -/
structure Merged (α : Type) where
  result : α
  journal : Journal

/-- The same record for another result. -/
def Merged.map {α β : Type} (f : α → β) (merged : Merged α) : Merged β :=
  ⟨f merged.result, merged.journal⟩

end Triversion
