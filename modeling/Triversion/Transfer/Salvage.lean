import Triversion.Transfer.Journal

/-!
Making a merged candidate acceptable.

All writes are taken back and then made again in halves; a single write that is still refused is
lost, except that items of a new sequence and entries of a new map are tried one by one.
-/

namespace Triversion

/-- Takes one write back. -/
def Write.takeBack (write : Write) (candidate : Value) : Value :=
  match write.reversal with
  | .restore v => Value.setAt write.path v candidate
  | .remove => candidate.eraseAt write.path
  | .emptySequence => Value.setAt write.path (.array []) candidate
  | .emptyMap => Value.setAt write.path (.object []) candidate

/-- Takes all writes back, the last one first. -/
def takeBackAll (writes : List Write) (candidate : Value) : Value :=
  writes.foldr Write.takeBack candidate

/-- Makes one write again, with the value that the merged candidate holds there. -/
def Write.redoOne (merged : Value) (candidate : Value) (write : Write) : Value :=
  match merged.at? write.path with
  | some v => Value.setAt write.path v candidate
  | none => candidate

/-- Makes writes again in their order. -/
def redoAll (merged : Value) (writes : List Write) (candidate : Value) : Value :=
  writes.foldl (Write.redoOne merged) candidate

/-- Tries items from a position on at the end of the sequence at a route. -/
def salvageItems (accepts : Value → Bool) (path : Path) (i : Nat) (candidate : Value) :
    List Value → Value × List Loss
  | [] => (candidate, [])
  | item :: rest =>
    -- Items that fit move up, while a loss is reported at the position in the source.
    let trial := Value.modifyAt path (Value.pushItem item) candidate
    if accepts trial then salvageItems accepts path (i + 1) trial rest
    else
      let (last, losses) := salvageItems accepts path (i + 1) candidate rest
      (last, lossOf (path.index i) item ++ losses)

/-- Tries entries one by one in the map at a route. -/
def salvageEntries (accepts : Value → Bool) (path : Path) (candidate : Value) :
    Fields → Value × List Loss
  | [] => (candidate, [])
  | (k, v) :: rest =>
    let trial := Value.modifyAt path (Value.setStep (.key k) v) candidate
    if accepts trial then salvageEntries accepts path trial rest
    else
      let without := Value.modifyAt path (Value.eraseStep (.key k)) trial
      let (last, losses) := salvageEntries accepts path without rest
      (last, lossOf (path.key k) v ++ losses)

/-- A single refused write keeps the items or entries that fit, and is lost otherwise. -/
def salvageWrite (accepts : Value → Bool) (merged : Value) (write : Write) (candidate : Value) :
    Value × List Loss :=
  match merged.at? write.path with
  | none => (candidate, [])
  | some v =>
    match write.reversal, v with
    | .emptySequence, .array items => salvageItems accepts write.path 0 candidate items
    | .emptyMap, .object entries => salvageEntries accepts write.path candidate entries
    -- Anything else is one value, which fits as a whole or not at all.
    | _, v => (candidate, lossOf write.path v)

/-- Makes writes again as far as the candidate stays acceptable, halving what is refused. -/
def redo (accepts : Value → Bool) (merged : Value) (writes : List Write) (candidate : Value) :
    Value × List Loss :=
  let trial := redoAll merged writes candidate
  match writes with
  | [] => (candidate, [])
  | [write] =>
    if accepts trial then (trial, []) else salvageWrite accepts merged write candidate
  | first :: second :: rest =>
    if accepts trial then (trial, [])
    else
      -- The second half is tried on top of what the first half left.
      let all := first :: second :: rest
      let half := all.length / 2
      let (middle, lossesLeft) := redo accepts merged (all.take half) candidate
      let (last, lossesRight) := redo accepts merged (all.drop half) middle
      (last, lossesLeft ++ lossesRight)
termination_by writes.length
decreasing_by
  -- Of two writes or more, each half has at least one and not all.
  · simp only [List.length_take, List.length_cons]; omega
  · simp only [List.length_drop, List.length_cons]; omega

/-- Saves what fits of a refused candidate; one that is refused without any write stays as it is. -/
def salvage (accepts : Value → Bool) (writes : List Write) (merged : Value) : Value × List Loss :=
  let bare := takeBackAll writes merged
  if accepts bare then redo accepts merged writes bare else (merged, [])

end Triversion
