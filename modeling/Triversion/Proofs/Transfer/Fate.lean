import Triversion.Proofs.Transfer.Salvage

/-!
What stands at the place of a write in the end.

A write that is taken back leaves what it restores. One that is tried again stands there as merged,
or stays taken back, or stands there with some of its items or entries; all that is reported on the
way stands in the merged value where it is reported.
-/

namespace Triversion

/-- What stands at the place of a write that is taken back. -/
def Reversal.leaves : Reversal → Option Value
  | .restore v => some v
  | .remove => none
  | .emptySequence => some (.array [])
  | .emptyMap => some (.object [])

/-- A write that is taken back by removing something removes a field. -/
def Write.RemovesField (write : Write) : Prop :=
  write.reversal = .remove → ∃ before name, write.path = Path.field before name

/-- A removed field is gone. -/
theorem Value.at?_eraseAt {path : Path} {name : String} {v : Value} (formed : v.WellFormed) :
    (v.eraseAt (path.field name)).at? (path.field name) = none := by
  induction path generalizing v with
  | nil =>
    cases v with
    | object fields =>
      change (Keyed.get? name (Keyed.erase name fields)).bind _ = _
      rw [Keyed.get?_erase_self formed.distinct, Option.bind_none]
    | _ => rfl
  | cons segment rest ih =>
    change (Value.eraseAt (segment :: Path.field rest name) v).at?
      (segment :: Path.field rest name) =
      none
    have steps : Value.eraseAt (segment :: Path.field rest name) v =
        Value.modifyStep segment (Value.eraseAt (Path.field rest name)) v := by
      cases rest <;> rfl
    rw [steps, Value.at?, Value.step?_modifyStep_self rfl]
    cases found : v.step? segment with
    | none => rfl
    | some part => exact ih (formed.step? found)

namespace Write

/-- At the place of a write that is taken back stands what its reversal leaves. -/
theorem at?_takeBack {write : Write} {v : Value} (place : v.HasPlace write.path)
    (formed : v.WellFormed) (removes : write.RemovesField) :
    (write.takeBack v).at? write.path = write.reversal.leaves := by
  obtain ⟨path, reversal⟩ := write
  cases reversal with
  | remove =>
    obtain ⟨before, name, rfl⟩ := removes rfl
    exact Value.at?_eraseAt formed
  | _ => exact Value.at?_setAt place _

end Write

/-- Once all writes of a merged value are taken back, their reversals show at their places. -/
theorem at?_takeBackAll {writes : List Write} {merged : Value} (formed : merged.WellFormed)
    (apart : Write.AllApart writes) (found : ∀ write ∈ writes, ∃ v, merged.at? write.path = some v)
    (restores : ∀ write ∈ writes, ∀ v, write.reversal = .restore v → v.WellFormed)
    (removes : ∀ write ∈ writes, write.RemovesField) :
    ∀ write ∈ writes, (takeBackAll writes merged).at? write.path = write.reversal.leaves := by
  induction writes with
  | nil => simp
  | cons first rest ih =>
    obtain ⟨apartFirst, apart⟩ := List.pairwise_cons.1 apart
    obtain ⟨foundFirst, found⟩ := List.forall_mem_cons.1 found
    obtain ⟨_, restores⟩ := List.forall_mem_cons.1 restores
    obtain ⟨removesFirst, removes⟩ := List.forall_mem_cons.1 removes
    refine List.forall_mem_cons.2 ⟨?_, fun write member => ?_⟩
    · -- The writes behind the first leave its place alone.
      obtain ⟨v, merges⟩ := foundFirst
      have outside := sameOutside_takeBackAll rest merged first.path
        (List.forall_mem_map.2 fun write listed => (apartFirst write listed).symm)
      exact first.at?_takeBack (outside.2 (Value.hasPlace_of_at? merges))
        (wellFormed_takeBackAll formed restores) removesFirst
    · rw [← ih apart found restores removes write member]
      exact (first.sameBeside_takeBack _ write.path (apartFirst write member)).1

/-- How a write ends in a candidate: as it was merged, taken back, or with a part of its value. -/
inductive Write.Ends (merged before after : Value) (write : Write) : Prop where
  | again (same : after.at? write.path = merged.at? write.path)
  | back (same : after.at? write.path = before.at? write.path)
  | items {items kept : List Value} (reversal : write.reversal = .emptySequence)
      (found : merged.at? write.path = some (.array items))
      (stands : after.at? write.path = some (.array kept)) (part : kept.Sublist items)
  | entries {entries kept : Fields} (reversal : write.reversal = .emptyMap)
      (found : merged.at? write.path = some (.object entries))
      (stands : after.at? write.path = some (.object kept)) (part : kept ⊆ entries)

/-- A loss that stands in the merged value where it is reported, at the place of a write. -/
structure Loss.Below (merged : Value) (writes : List Write) (loss : Loss) : Prop where
  below : ∃ write ∈ writes, ∃ rest, loss.path = write.path ++ rest
  found : merged.at? loss.path = some loss.value
  filled : loss.value.isBlank = false

/-- How writes end in a candidate, and what is reported of them. -/
structure Fate (merged before : Value) (writes : List Write) (after : Value)
    (losses : List Loss) : Prop where
  ends : ∀ write ∈ writes, write.Ends merged before after
  reported : ∀ loss ∈ losses, loss.Below merged writes

/-- What is lost of a value is the value, which carries information. -/
theorem mem_lossOf {path : Path} {v : Value} {loss : Loss} (lost : loss ∈ lossOf path v) :
    loss = ⟨path, v⟩ ∧ v.isBlank = false := by
  unfold lossOf at lost
  split at lost
  · simp at lost
  · next filled => exact ⟨List.mem_singleton.1 lost, Bool.eq_false_iff.2 filled⟩

section Salvage

variable (accepts : Value → Bool) {merged candidate : Value} {path : Path}

/-- Of the items that are tried some stand behind those that were there. -/
theorem at?_salvageItems (i : Nat) (items : List Value) {there : List Value}
    (here : candidate.at? path = some (.array there)) :
    ∃ kept, (salvageItems accepts path i candidate items).1.at? path =
      some (.array (there ++ kept)) ∧ kept.Sublist items := by
  -- An item that stays is there for those that are tried behind it.
  induction items generalizing i candidate there with
  | nil => exact ⟨[], by rwa [List.append_nil], List.Sublist.refl _⟩
  | cons item rest ih =>
    rw [salvageItems]
    split
    · have trial : (candidate.modifyAt path (Value.pushItem item)).at? path =
          some (.array (there ++ [item])) := by
        rw [Value.at?_modifyAt, here]
        rfl
      obtain ⟨kept, stands, part⟩ := ih (i + 1) trial
      exact ⟨item :: kept, by rw [stands, List.append_assoc, List.singleton_append],
        part.cons_cons item⟩
    · obtain ⟨kept, stands, part⟩ := ih (i + 1) here
      exact ⟨kept, stands, part.cons item⟩

/-- An item that is reported is reported at its position in the source. -/
theorem mem_salvageItems {start : Nat} {items : List Value} {loss : Loss}
    (lost : loss ∈ (salvageItems accepts path start candidate items).2) :
    ∃ i item, items[i]? = some item ∧ loss = ⟨path.index (start + i), item⟩ ∧
      item.isBlank = false := by
  induction items generalizing start candidate with
  | nil => simp [salvageItems] at lost
  | cons item rest ih =>
    -- Behind the first item every position is one further.
    have later : ∀ candidate, loss ∈ (salvageItems accepts path (start + 1) candidate rest).2 →
        ∃ i other, (item :: rest)[i]? = some other ∧ loss = ⟨path.index (start + i), other⟩ ∧
          other.isBlank = false := by
      intro candidate lost
      obtain ⟨i, other, found, same, filled⟩ := ih lost
      exact ⟨i + 1, other, found, by rw [same, Nat.add_assoc, Nat.add_comm 1], filled⟩
    rw [salvageItems] at lost
    split at lost
    · exact later _ lost
    · rcases List.mem_append.1 lost with here | lost
      · obtain ⟨same, filled⟩ := mem_lossOf here
        exact ⟨0, item, rfl, same, filled⟩
      · exact later _ lost

/-- What stands in a map after entries are tried is one of them, or was there before. -/
theorem salvageEntries_subset (entries : Fields) {there : Fields}
    (here : candidate.at? path = some (.object there)) :
    ∃ kept, (salvageEntries accepts path candidate entries).1.at? path = some (.object kept) ∧
      kept ⊆ entries ++ there := by
  induction entries generalizing candidate there with
  | nil => exact ⟨there, here, List.Subset.refl _⟩
  | cons entry rest ih =>
    obtain ⟨k, v⟩ := entry
    have trial : (candidate.modifyAt path (Value.setStep (.key k) v)).at? path =
        some (.object (Keyed.put k v there)) := by
      rw [Value.at?_modifyAt, here]
      rfl
    -- Whatever stays of the map with the entry is the entry, or was there.
    have wider : ∀ stored ⊆ Keyed.put k v there, rest ++ stored ⊆ (k, v) :: rest ++ there := by
      intro stored inside entry member
      rcases List.mem_append.1 member with later | old
      · exact List.mem_cons_of_mem _ (List.mem_append_left _ later)
      · rcases Keyed.mem_put (inside old) with rfl | old
        · exact List.mem_cons_self
        · exact List.mem_append_right _ old
    rw [salvageEntries]
    split
    · obtain ⟨kept, stands, part⟩ := ih trial
      exact ⟨kept, stands, List.Subset.trans part (wider _ (List.Subset.refl _))⟩
    · -- A refused entry is erased, whatever it has replaced.
      have without : ((candidate.modifyAt path (Value.setStep (.key k) v)).modifyAt path
          (Value.eraseStep (.key k))).at? path =
            some (.object (Keyed.erase k (Keyed.put k v there))) := by
        rw [Value.at?_modifyAt, trial]
        rfl
      obtain ⟨kept, stands, part⟩ := ih without
      exact ⟨kept, stands, List.Subset.trans part (wider _ (Keyed.sublist_erase k _).subset)⟩

/-- An entry that is reported is reported under its key. -/
theorem mem_salvageEntries {entries : Fields} {loss : Loss}
    (lost : loss ∈ (salvageEntries accepts path candidate entries).2) :
    ∃ entry ∈ entries, loss = ⟨path.key entry.1, entry.2⟩ ∧ entry.2.isBlank = false := by
  induction entries generalizing candidate with
  | nil => simp [salvageEntries] at lost
  | cons entry rest ih =>
    have later : ∀ candidate, loss ∈ (salvageEntries accepts path candidate rest).2 →
        ∃ other ∈ entry :: rest, loss = ⟨path.key other.1, other.2⟩ ∧
          other.2.isBlank = false := by
      intro candidate lost
      obtain ⟨other, member, found⟩ := ih lost
      exact ⟨other, List.mem_cons_of_mem _ member, found⟩
    rw [salvageEntries] at lost
    split at lost
    · exact later _ lost
    · rcases List.mem_append.1 lost with here | lost
      · exact ⟨entry, List.mem_cons_self, mem_lossOf here⟩
      · exact later _ lost

/-- All that is reported of a refused write stands at its place, or right below it. -/
theorem below_salvageWrite (formedMerged : merged.WellFormed) (write : Write) :
    ∀ loss ∈ (salvageWrite accepts merged write candidate).2, loss.Below merged [write] := by
  intro loss lost
  unfold salvageWrite at lost
  split at lost
  · simp at lost
  · next v found =>
    split at lost
    · obtain ⟨i, item, held, rfl, filled⟩ := mem_salvageItems accepts lost
      refine ⟨⟨write, List.mem_singleton_self _, [.index (0 + i)], rfl⟩, ?_, filled⟩
      rw [Nat.zero_add, Path.index, Value.at?_append, found]
      simp [Value.at?, Value.step?, held]
    · obtain ⟨entry, member, rfl, filled⟩ := mem_salvageEntries accepts lost
      refine ⟨⟨write, List.mem_singleton_self _, [.key entry.1], rfl⟩, ?_, filled⟩
      rw [Path.key, Value.at?_append, found]
      simp [Value.at?, Value.step?, Keyed.get?_of_mem (formedMerged.at? found).distinct member]
    · obtain ⟨rfl, filled⟩ := mem_lossOf lost
      exact ⟨⟨write, List.mem_singleton_self _, [], (List.append_nil _).symm⟩, found, filled⟩

/-- A refused write stays taken back, or is made in part. -/
theorem fate_salvageWrite (formedMerged : merged.WellFormed) {write : Write} {v : Value}
    (found : merged.at? write.path = some v)
    (back : candidate.at? write.path = write.reversal.leaves) :
    Fate merged candidate [write] (salvageWrite accepts merged write candidate).1
      (salvageWrite accepts merged write candidate).2 := by
  refine ⟨List.forall_mem_singleton.2 ?_, below_salvageWrite accepts formedMerged write⟩
  simp only [salvageWrite, found]
  split
  · next items isSequence =>
    obtain ⟨kept, stands, part⟩ := at?_salvageItems accepts 0 items
      (back.trans (congrArg Reversal.leaves isSequence))
    exact .items isSequence found stands part
  · next entries isMap =>
    obtain ⟨kept, stands, part⟩ := salvageEntries_subset accepts entries
      (back.trans (congrArg Reversal.leaves isMap))
    rw [List.append_nil] at part
    exact .entries isMap found stands part
  · exact .back rfl

/-- Two groups of writes that are apart end as each of them does. -/
theorem Fate.append {middle after : Value} {left right : List Write}
    {lossesLeft lossesRight : List Loss}
    (apart : ∀ a ∈ left, ∀ b ∈ right, a.path.Apart b.path)
    (outsideLeft : Value.SameOutside (left.map (·.path)) candidate middle)
    (outsideRight : Value.SameOutside (right.map (·.path)) middle after)
    (first : Fate merged candidate left middle lossesLeft)
    (second : Fate merged middle right after lossesRight) :
    Fate merged candidate (left ++ right) after (lossesLeft ++ lossesRight) := by
  constructor
  · intro write member
    rcases List.mem_append.1 member with before | now
    · -- The right group leaves the place of the write alone, and so it stays as it ended.
      have same := (outsideRight write.path (List.forall_mem_map.2 fun other inside =>
        (apart write before other inside).symm)).1
      cases first.ends write before with
      | again again => exact .again (same.trans again)
      | back back => exact .back (same.trans back)
      | items reversal found stands part => exact .items reversal found (same.trans stands) part
      | entries reversal found stands part => exact .entries reversal found (same.trans stands) part
    · -- The left group left the place of the write as it was.
      have same := (outsideLeft write.path (List.forall_mem_map.2 fun other inside =>
        apart other inside write now)).1
      cases second.ends write now with
      | again again => exact .again again
      | back back => exact .back (back.trans same)
      | items reversal found stands part => exact .items reversal found stands part
      | entries reversal found stands part => exact .entries reversal found stands part
  · intro loss member
    rcases List.mem_append.1 member with before | now
    · obtain ⟨⟨write, listed, below⟩, found, filled⟩ := first.reported loss before
      exact ⟨⟨write, List.mem_append_left _ listed, below⟩, found, filled⟩
    · obtain ⟨⟨write, listed, below⟩, found, filled⟩ := second.reported loss now
      exact ⟨⟨write, List.mem_append_right _ listed, below⟩, found, filled⟩

/-- Halving ends every write that was taken back. -/
theorem fate_redo (accepts : Value → Bool) (formedMerged : merged.WellFormed)
    {writes : List Write} (apart : Write.AllApart writes)
    (ready : ∀ write ∈ writes, write.Ready merged candidate) (formed : candidate.WellFormed)
    (back : ∀ write ∈ writes, candidate.at? write.path = write.reversal.leaves) :
    Fate merged candidate writes (redo accepts merged writes candidate).1
      (redo accepts merged writes candidate).2 := by
  refine (redo_induction accepts formedMerged
    (motive := fun writes before after losses =>
      (∀ write ∈ writes, before.at? write.path = write.reversal.leaves) →
        Fate merged before writes after losses) ?_ ?_ ?_ apart ready formed).2 back
  · -- What is accepted as a group ends as it was merged.
    intro writes before apart ready _ _
    exact ⟨fun write member => .again (at?_redoAll apart ready write member), by simp⟩
  · intro write before ready _ back
    obtain ⟨v, found⟩ := ready.found
    exact fate_salvageWrite accepts formedMerged found (back write List.mem_cons_self)
  · -- Groups are apart, so the left one leaves what the right one starts from.
    intro left right before middle after lossesLeft lossesRight apart first second
      fateLeft fateRight back
    refine .append apart first.outside second.outside
      (fateLeft fun write member => back write (List.mem_append_left _ member))
      (fateRight fun write member => ?_)
    rw [← back write (List.mem_append_right _ member)]
    exact (first.outside write.path (List.forall_mem_map.2 fun other inside =>
      apart other inside write member)).1

end Salvage

end Triversion
