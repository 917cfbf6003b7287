import Triversion.Proofs.Shape.Fixed
import Triversion.Proofs.Transfer.Candidate
import Triversion.Proofs.Transfer.Fate

/-!
Copies into values of fixed structure, write by write.

Whether such a value takes a write depends on nothing but the place and the value of the write. So
halving keeps exactly the writes that are taken, and reports all others in their order.
-/

namespace Triversion

/-- Whether a shape takes a write of the merged value at its place. -/
def Shape.keeps (root : Shape) (merged : Value) (write : Write) : Bool :=
  (merged.at? write.path).all fun v => Shape.takes write.path root v

/-- What is reported of the writes that a shape does not take. -/
def refusals (root : Shape) (merged : Value) (writes : List Write) : List Loss :=
  writes.flatMap fun write =>
    if root.keeps merged write then []
    else (merged.at? write.path).elim [] (lossOf write.path)

/-- A write of a field or of a part that is known, at a place behind a shape at a route. -/
structure Write.Simple (path : Path) (shape : Shape) (write : Write) : Prop where
  passes : ∃ rest, write.path = path ++ rest ∧ Shape.Passes rest shape
  notSequence : write.reversal ≠ .emptySequence
  notMap : write.reversal ≠ .emptyMap
  removes : write.RemovesField

theorem Write.Simple.passes_root {root : Shape} {write : Write}
    (simple : write.Simple Path.root root) : Shape.Passes write.path root := by
  obtain ⟨rest, route, passes⟩ := simple.passes
  rw [route]
  exact passes

/-- Every write stands as merged if it is kept, and is taken back otherwise. -/
def EndsBy (keeps : Write → Bool) (merged : Value) (writes : List Write) (after : Value) : Prop :=
  ∀ write ∈ writes, after.at? write.path =
    if keeps write then merged.at? write.path else write.reversal.leaves

section Decided

open Shape

variable {root : Shape} {merged candidate : Value} {accepts : Value → Bool}

/-- What is accepted holds nothing but writes that the shape takes. -/
theorem keeps_of_accepted (steady : root.everywhere isSteady = true)
    (decides : ∀ v, accepts v = (root.rebuild v).isSome) {writes : List Write}
    (apart : Write.AllApart writes) (ready : ∀ write ∈ writes, write.Ready merged candidate)
    (passes : ∀ write ∈ writes, Shape.Passes write.path root)
    (accepted : accepts (redoAll merged writes candidate) = true) :
    ∀ write ∈ writes, root.keeps merged write = true := by
  intro write member
  obtain ⟨v, found⟩ := (ready write member).found
  rw [keeps, found, Option.all_some]
  exact takes_of_rebuild steady (passes write member) (decides _ ▸ accepted)
    ((at?_redoAll apart ready write member).trans found)

/-- What is accepted takes a write that the shape takes. -/
theorem accepted_of_keeps (steady : root.everywhere isSteady = true)
    (decides : ∀ v, accepts v = (root.rebuild v).isSome) {write : Write}
    (ready : write.Ready merged candidate) (accepted : accepts candidate = true)
    (kept : root.keeps merged write = true) :
    accepts (Write.redoOne merged candidate write) = true := by
  obtain ⟨v, found⟩ := ready.found
  rw [keeps, found, Option.all_some] at kept
  rw [redoOne_of_found found, decides]
  exact rebuild_setAt_isSome steady (decides _ ▸ accepted) ready.place kept

/-- Halving keeps exactly the writes that the shape takes. -/
theorem endsBy_redo (steady : root.everywhere isSteady = true)
    (decides : ∀ v, accepts v = (root.rebuild v).isSome) (formedMerged : merged.WellFormed)
    {writes : List Write} (apart : Write.AllApart writes)
    (ready : ∀ write ∈ writes, write.Ready merged candidate) (formed : candidate.WellFormed)
    (simple : ∀ write ∈ writes, write.Simple Path.root root)
    (back : ∀ write ∈ writes, candidate.at? write.path = write.reversal.leaves)
    (accepted : accepts candidate = true) :
    EndsBy (root.keeps merged) merged writes (redo accepts merged writes candidate).1 ∧
      (redo accepts merged writes candidate).2 = refusals root merged writes ∧
      accepts (redo accepts merged writes candidate).1 = true := by
  -- Every group starts from an accepted candidate in which its own writes are taken back.
  refine (redo_induction accepts formedMerged (motive := fun writes before after losses =>
    (∀ write ∈ writes, write.Simple Path.root root) →
    (∀ write ∈ writes, before.at? write.path = write.reversal.leaves) → accepts before = true →
    EndsBy (root.keeps merged) merged writes after ∧ losses = refusals root merged writes ∧
      accepts after = true) ?_ ?_ ?_ apart ready formed).2 simple back accepted
  · -- What is accepted holds nothing but writes that are taken.
    intro writes before apart ready made simple _ accepted
    have acceptedAfter : accepts (redoAll merged writes before) = true := by
      rcases made with rfl | made
      · exact accepted
      · exact made
    have again := at?_redoAll apart ready
    have kept := keeps_of_accepted steady decides apart ready
      (fun write member => (simple write member).passes_root) acceptedAfter
    refine ⟨fun write member => by rw [again write member, kept write member, if_pos rfl], ?_,
      acceptedAfter⟩
    exact (List.flatMap_eq_nil_iff.2 fun write member => by rw [kept write member, if_pos rfl]).symm
  · -- A single write that is refused is not taken, since the candidate without it is accepted.
    intro write before ready refused simple back accepted
    have simple := simple write (List.mem_singleton_self _)
    obtain ⟨v, found⟩ := ready.found
    have notKept : root.keeps merged write = false := Bool.eq_false_iff.2 fun kept =>
      Bool.eq_false_iff.1 refused (accepted_of_keeps steady decides ready accepted kept)
    -- There are no items or entries that could be tried one by one.
    have lost : salvageWrite accepts merged write before = (before, lossOf write.path v) := by
      simp only [salvageWrite, found]
      split
      · next isSequence => exact absurd isSequence simple.notSequence
      · next isMap => exact absurd isMap simple.notMap
      · rfl
    rw [lost]
    refine ⟨List.forall_mem_singleton.2 ?_, ?_, accepted⟩
    · rw [notKept, if_neg Bool.false_ne_true, back write (List.mem_singleton_self _)]
    · simp [refusals, notKept, found]
  · -- The left group has left the places of the right one as they were.
    intro left right before middle after lossesLeft lossesRight apart first second endsLeft
      endsRight simple back accepted
    obtain ⟨endLeft, rfl, acceptedMiddle⟩ := endsLeft
      (fun write member => simple write (List.mem_append_left _ member))
      (fun write member => back write (List.mem_append_left _ member)) accepted
    have backRight : ∀ write ∈ right, middle.at? write.path = write.reversal.leaves := by
      intro write member
      rw [← back write (List.mem_append_right _ member)]
      exact (first.outside write.path (List.forall_mem_map.2 fun other inside =>
        apart other inside write member)).1
    obtain ⟨endRight, rfl, acceptedAfter⟩ := endsRight
      (fun write member => simple write (List.mem_append_right _ member)) backRight acceptedMiddle
    refine ⟨fun write member => ?_, List.flatMap_append.symm, acceptedAfter⟩
    rcases List.mem_append.1 member with before | now
    · -- The right group leaves the place of the write alone.
      rw [← endLeft write before]
      exact (second.outside write.path (List.forall_mem_map.2 fun other inside =>
        (apart write before other inside).symm)).1
    · exact endRight write now

end Decided

end Triversion
