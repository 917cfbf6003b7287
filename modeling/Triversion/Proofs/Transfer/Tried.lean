import Triversion.Proofs.Transfer.Acceptance
import Triversion.Proofs.Transfer.Drawn

/-!
How each write of a copy is tried.

A write stands in the end, or it was once refused on its own, on top of a candidate that the
destination type accepts. So whatever would be accepted on top of any such candidate stands.
-/

namespace Triversion

/--
How a write was tried in the end.

A write that does not stand as merged was refused on an acceptable candidate that it was taken back
from, and what was salvaged of it there stands in its place.
-/
inductive Write.Tried (accepts : Value → Bool) (merged after : Value) (losses : List Loss)
    (write : Write) : Prop where
  | stands (same : after.at? write.path = merged.at? write.path)
  | refused {before : Value} (acceptable : accepts before = true)
      (ready : write.Ready merged before)
      (back : before.at? write.path = write.reversal.leaves)
      (refused : accepts (redoAll merged [write] before) = false)
      (left : after.at? write.path =
        (salvageWrite accepts merged write before).1.at? write.path)
      (reported : (salvageWrite accepts merged write before).2 ⊆ losses)

namespace Write.Tried

variable {accepts : Value → Bool} {merged after later : Value} {losses more : List Loss}
  {write : Write}

/-- How a write was tried does not change while its place is left alone. -/
theorem mono (tried : write.Tried accepts merged after losses)
    (kept : later.at? write.path = after.at? write.path) (wider : losses ⊆ more) :
    write.Tried accepts merged later more := by
  cases tried with
  | stands same => exact .stands (kept.trans same)
  | refused acceptable ready back refused left reported =>
    exact .refused acceptable ready back refused (kept.trans left)
      (List.Subset.trans reported wider)

/-- A write that would be accepted on top of whatever is acceptable stands. -/
theorem stands_of_accepted (tried : write.Tried accepts merged after losses)
    (fits : ∀ before, accepts before = true → write.Ready merged before →
      accepts (redoAll merged [write] before) = true) :
    after.at? write.path = merged.at? write.path := by
  cases tried with
  | stands same => exact same
  | refused acceptable ready _ refused => simp [fits _ acceptable ready] at refused

/-- A write of one value stands as merged, or it is taken back and reported as a whole. -/
theorem stands_or_back (tried : write.Tried accepts merged after losses) {v : Value}
    (found : merged.at? write.path = some v)
    (one : write.reversal = .remove ∨ ∃ w, write.reversal = .restore w) :
    after.at? write.path = some v ∨
      after.at? write.path = write.reversal.leaves ∧ lossOf write.path v ⊆ losses := by
  cases tried with
  | stands same => exact .inl (same.trans found)
  | @refused before _ _ back _ left reported =>
    -- Only sequences and maps are salvaged in parts.
    have whole : salvageWrite accepts merged write before = (before, lossOf write.path v) := by
      rw [salvageWrite, found]
      rcases one with remove | ⟨w, restore⟩
      · simp [remove]
      · simp [restore]
    rw [whole] at left reported
    exact .inr ⟨left.trans back, reported⟩

end Write.Tried

/-- Whatever halving starts from, it tries every write. -/
theorem tried_redo (accepts : Value → Bool) {merged candidate : Value}
    (formedMerged : merged.WellFormed) {writes : List Write} (apart : Write.AllApart writes)
    (ready : ∀ write ∈ writes, write.Ready merged candidate) (formed : candidate.WellFormed)
    (back : ∀ write ∈ writes, candidate.at? write.path = write.reversal.leaves)
    (acceptable : accepts candidate = true) :
    ∀ write ∈ writes, write.Tried accepts merged (redo accepts merged writes candidate).1
      (redo accepts merged writes candidate).2 := by
  -- Each group starts from an acceptable candidate, and leaves one to the group behind it.
  refine ((redo_induction accepts formedMerged (motive := fun writes before after losses =>
    accepts before = true → (∀ write ∈ writes, before.at? write.path = write.reversal.leaves) →
      accepts after = true ∧ ∀ write ∈ writes, write.Tried accepts merged after losses) ?_ ?_ ?_
    apart ready formed).2 acceptable back).2
  · intro writes before apart ready accepted acceptable _
    refine ⟨?_, fun write member => .stands (at?_redoAll apart ready write member)⟩
    rcases accepted with rfl | accepted
    · exact acceptable
    · exact accepted
  · intro write before ready refused acceptable back
    refine ⟨accepts_salvageWrite formedMerged ready acceptable, List.forall_mem_singleton.2 ?_⟩
    exact .refused acceptable ready (back write List.mem_cons_self) refused rfl
      (List.Subset.refl _)
  · intro left right before middle after _ _ apart first second triedLeft triedRight acceptable back
    obtain ⟨acceptableMiddle, triedLeft⟩ := triedLeft acceptable fun write member =>
      back write (List.mem_append_left _ member)
    -- Groups are apart, so neither of them touches the places of the other.
    obtain ⟨acceptableAfter, triedRight⟩ := triedRight acceptableMiddle fun write member => by
      rw [← back write (List.mem_append_right _ member)]
      exact (first.outside write.path (List.forall_mem_map.2 fun other inside =>
        apart other inside write member)).1
    refine ⟨acceptableAfter, fun write member => ?_⟩
    rcases List.mem_append.1 member with before | now
    · refine (triedLeft write before).mono ?_ (List.subset_append_left _ _)
      exact (second.outside write.path (List.forall_mem_map.2 fun other inside =>
        (apart write before other inside).symm)).1
    · exact (triedRight write now).mono rfl (List.subset_append_right _ _)

namespace Transfer

variable {δ : Type} {exclusions : Exclusions} {codec : Codec δ} {fields given : Fields}

/-- If the bare candidate is refused, the merged one is left as it is. -/
theorem candidate_of_unacceptable
    (refused : accepts codec (bare exclusions codec fields given) = false) :
    (candidate exclusions codec fields given).1 =
      .object (merge exclusions codec fields given).result := by
  unfold bare at refused
  simp only [candidate, salvage]
  split
  · rfl
  · rw [refused, if_neg Bool.false_ne_true]

/-- The candidate that is rebuilt has tried all writes of its merge. -/
theorem tried_candidate (formedThere : (Value.object fields).WellFormed)
    (formed : (Value.object given).WellFormed) {whole : Value} {lost : List Loss} {new : δ}
    (chosen : candidate exclusions codec fields given = (whole, lost))
    (rebuilt : codec.decode whole = some new) :
    ∀ write ∈ (merge exclusions codec fields given).journal.writes,
      write.Tried (accepts codec) (.object (merge exclusions codec fields given).result) whole
        lost := by
  have sound := sound_merge exclusions codec formedThere formed
  intro write member
  rcases candidate_cases chosen rebuilt with ⟨rfl, _⟩ | ⟨more, redone, rfl⟩
  · exact .stands rfl
  · cases acceptable : accepts codec (bare exclusions codec fields given) with
    | true =>
      have tried := tried_redo (accepts codec) sound.wellFormed sound.apart
        (ready_bare formedThere formed) (wellFormed_bare formedThere formed)
        (at?_bare exclusions codec formedThere formed) acceptable write member
      simp only [Merged.map, redone] at tried
      exact tried.mono rfl (List.subset_append_right _ _)
    | false =>
      have same := candidate_of_unacceptable acceptable
      rw [chosen] at same
      exact .stands (congrArg (Value.at? write.path) same)

end Transfer

end Triversion
