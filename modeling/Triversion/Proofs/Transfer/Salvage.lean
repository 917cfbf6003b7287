import Triversion.Proofs.Transfer.Writes
import Triversion.Transfer.Salvage

/-!
What becomes of the writes of a refused candidate.

Every write is made again, or reported, or made again entry by entry with the rest reported; what
is apart from all writes stays as it is.
-/

namespace Triversion

/-- All that is apart from every one of several routes is the same in both values. -/
def Value.SameOutside (paths : List Path) (before after : Value) : Prop :=
  ∀ other, (∀ path ∈ paths, path.Apart other) →
    after.at? other = before.at? other ∧ (before.HasPlace other → after.HasPlace other)

namespace Value.SameOutside

variable {paths others : List Path} {first second third : Value}

theorem refl (paths : List Path) (v : Value) : SameOutside paths v v :=
  fun _ _ => ⟨rfl, id⟩

theorem trans (before : SameOutside paths first second) (after : SameOutside others second third)
    (wider : paths ⊆ others) : SameOutside others first third := by
  intro other apart
  obtain ⟨readsBefore, placeBefore⟩ := before other fun path member => apart path (wider member)
  obtain ⟨readsAfter, placeAfter⟩ := after other apart
  exact ⟨readsAfter.trans readsBefore, placeAfter ∘ placeBefore⟩

/-- A change beside one route is a change outside of all that contain it. -/
theorem of_beside {path : Path} (beside : SameBeside path first second) (member : path ∈ paths) :
    SameOutside paths first second :=
  fun other apart => beside other (apart path member)

end Value.SameOutside

/-- Writes stand on routes of their own. -/
def Write.AllApart (writes : List Write) : Prop :=
  writes.Pairwise fun first second => first.path.Apart second.path

/-- A write of the merged value could be made in a candidate, and an emptied map is empty there. -/
structure Write.Ready (merged candidate : Value) (write : Write) : Prop where
  found : ∃ v, merged.at? write.path = some v
  place : candidate.HasPlace write.path
  emptied : write.reversal = .emptyMap → candidate.at? write.path = some (.object [])

/--
How a write ends in a candidate: it is made again, or lost, or its entries are one by one.

The items of a new sequence may also be kept in part.
-/
def Write.Settled (merged candidate : Value) (losses : List Loss) (write : Write) : Prop :=
  ∃ v, merged.at? write.path = some v ∧
    (candidate.at? write.path = some v ∨ lossOf write.path v ⊆ losses ∨
      (∃ items, v = .array items) ∨
      ∃ entries kept, v = .object entries ∧ candidate.at? write.path = some (.object kept) ∧
        ∀ entry ∈ entries, Keyed.get? entry.1 kept = some entry.2 ∨
          lossOf (write.path.key entry.1) entry.2 ⊆ losses)

namespace Write

/-- A write that has settled stays settled while its place is left alone. -/
theorem Settled.mono {merged candidate after : Value} {losses more : List Loss} {write : Write}
    (settled : write.Settled merged candidate losses)
    (kept : after.at? write.path = candidate.at? write.path) (wider : losses ⊆ more) :
    write.Settled merged after more := by
  -- All that is said of the candidate is said of what stands at the place.
  obtain ⟨v, found, cases⟩ := settled
  refine ⟨v, found, ?_⟩
  rcases cases with same | lost | items | ⟨entries, left, isMap, same, each⟩
  · exact .inl (kept.trans same)
  · exact .inr (.inl (List.Subset.trans lost wider))
  · exact .inr (.inr (.inl items))
  · refine .inr (.inr (.inr ⟨entries, left, isMap, kept.trans same, ?_⟩))
    intro entry member
    exact (each entry member).imp id fun lost => List.Subset.trans lost wider

/-- A write stays ready while its place is left alone. -/
theorem Ready.of_sameOutside {merged before after : Value} {write : Write} {paths : List Path}
    (ready : write.Ready merged before) (same : Value.SameOutside paths before after)
    (apart : ∀ path ∈ paths, path.Apart write.path) : write.Ready merged after := by
  obtain ⟨reads, place⟩ := same write.path apart
  exact ⟨ready.found, place ready.place, fun isMap => reads.trans (ready.emptied isMap)⟩

/-- Taking a write back leaves alone what is apart from it. -/
theorem sameBeside_takeBack (write : Write) (v : Value) :
    Value.SameBeside write.path v (write.takeBack v) := by
  -- Each of the four ways sets or removes at the end of the route.
  unfold takeBack
  split
  · exact .setAt _ _ _
  · exact .eraseAt _ _
  · exact .setAt _ _ _
  · exact .setAt _ _ _

/-- Taking a write back leaves its place. -/
theorem hasPlace_takeBack (write : Write) {v : Value} (place : v.HasPlace write.path) :
    (write.takeBack v).HasPlace write.path := by
  unfold takeBack
  split
  · exact Value.hasPlace_setAt place _
  · exact Value.hasPlace_eraseAt place
  · exact Value.hasPlace_setAt place _
  · exact Value.hasPlace_setAt place _

/-- Taking a write back keeps a value well formed. -/
theorem wellFormed_takeBack (write : Write) {v : Value} (formed : v.WellFormed)
    (restores : ∀ w, write.reversal = .restore w → w.WellFormed) :
    (write.takeBack v).WellFormed := by
  -- What is put back was there before, or is empty.
  unfold takeBack
  split
  · next w same => exact formed.setAt _ (restores w same)
  · exact formed.eraseAt _
  · exact formed.setAt _ trivial
  · exact formed.setAt _ (Value.wellFormed_object.2 ⟨List.Pairwise.nil, by simp⟩)

end Write

/-- Taking writes back leaves alone what is apart from them. -/
theorem sameOutside_takeBackAll (writes : List Write) (v : Value) :
    Value.SameOutside (writes.map (·.path)) v (takeBackAll writes v) := by
  -- The first write is taken back last, after all that came behind it.
  induction writes with
  | nil => exact .refl _ _
  | cons write rest ih =>
    exact ih.trans (.of_beside (write.sameBeside_takeBack _) List.mem_cons_self)
      (List.subset_cons_self _ _)

/-- Taking writes back keeps a value well formed. -/
theorem wellFormed_takeBackAll {writes : List Write} {v : Value} (formed : v.WellFormed)
    (restores : ∀ write ∈ writes, ∀ w, write.reversal = .restore w → w.WellFormed) :
    (takeBackAll writes v).WellFormed := by
  induction writes with
  | nil => exact formed
  | cons write rest ih =>
    obtain ⟨first, later⟩ := List.forall_mem_cons.1 restores
    exact write.wellFormed_takeBack (ih later) first

/-- Once all writes of a merged value are taken back, each of them could be made again. -/
theorem ready_takeBackAll {writes : List Write} {merged : Value} (apart : Write.AllApart writes)
    (found : ∀ write ∈ writes, ∃ v, merged.at? write.path = some v) :
    ∀ write ∈ writes, write.Ready merged (takeBackAll writes merged) := by
  induction writes with
  | nil => simp
  | cons first rest ih =>
    obtain ⟨apartFirst, apart⟩ := List.pairwise_cons.1 apart
    obtain ⟨foundFirst, found⟩ := List.forall_mem_cons.1 found
    refine List.forall_mem_cons.2 ⟨?_, fun write member => ?_⟩
    · -- The first write is taken back last, when its place is still as it was merged.
      obtain ⟨v, merges⟩ := foundFirst
      have outside := sameOutside_takeBackAll rest merged first.path
        (List.forall_mem_map.2 fun write listed => (apartFirst write listed).symm)
      have place := outside.2 (Value.hasPlace_of_at? merges)
      refine ⟨⟨v, merges⟩, first.hasPlace_takeBack place, fun isMap => ?_⟩
      change (first.takeBack (takeBackAll rest merged)).at? first.path = _
      simp only [Write.takeBack, isMap]
      exact Value.at?_setAt place _
    · -- A later write has been made ready already, and the first one is apart from it.
      obtain ⟨merges, place, emptied⟩ := ih apart found write member
      obtain ⟨reads, keeps⟩ := first.sameBeside_takeBack (takeBackAll rest merged) write.path
        (apartFirst write member)
      exact ⟨merges, keeps place, fun isMap => reads.trans (emptied isMap)⟩

section Redo

variable {merged candidate : Value}

/-- A write that is made again puts back what the merged value has there. -/
theorem redoOne_of_found {write : Write} {v : Value} (found : merged.at? write.path = some v) :
    Write.redoOne merged candidate write = Value.setAt write.path v candidate := by
  simp only [Write.redoOne, found]

/-- Making writes again leaves alone what is apart from them. -/
theorem sameOutside_redoAll (merged : Value) (writes : List Write) (candidate : Value) :
    Value.SameOutside (writes.map (·.path)) candidate (redoAll merged writes candidate) := by
  -- Each write sets the end of its own route, or nothing if the route leads nowhere.
  induction writes generalizing candidate with
  | nil => exact .refl _ _
  | cons write rest ih =>
    have first : Value.SameOutside [write.path] candidate
        (Write.redoOne merged candidate write) := by
      unfold Write.redoOne
      split
      · exact .of_beside (.setAt _ _ _) List.mem_cons_self
      · exact .refl _ _
    intro other apart
    obtain ⟨apartFirst, apart⟩ := List.forall_mem_cons.1 apart
    obtain ⟨readsFirst, placeFirst⟩ := first other (by simpa using apartFirst)
    obtain ⟨reads, place⟩ := ih (Write.redoOne merged candidate write) other apart
    exact ⟨reads.trans readsFirst, place ∘ placeFirst⟩

/-- Making writes again keeps a value well formed. -/
theorem wellFormed_redoAll (formedMerged : merged.WellFormed) (writes : List Write)
    (formed : candidate.WellFormed) : (redoAll merged writes candidate).WellFormed := by
  -- What a write sets is a part of the merged value.
  induction writes generalizing candidate with
  | nil => exact formed
  | cons write rest ih =>
    change (redoAll merged rest (Write.redoOne merged candidate write)).WellFormed
    refine ih ?_
    unfold Write.redoOne
    split
    · next v found => exact formed.setAt _ (formedMerged.at? found)
    · exact formed

/-- All writes that are ready can be made again, each one as the merged value has it. -/
theorem at?_redoAll {writes : List Write} (apart : Write.AllApart writes)
    (ready : ∀ write ∈ writes, write.Ready merged candidate) :
    ∀ write ∈ writes, (redoAll merged writes candidate).at? write.path = merged.at? write.path := by
  induction writes generalizing candidate with
  | nil => simp
  | cons first rest ih =>
    obtain ⟨apartFirst, apart⟩ := List.pairwise_cons.1 apart
    obtain ⟨⟨v, found⟩, place, _⟩ := ready first List.mem_cons_self
    have again : redoAll merged (first :: rest) candidate =
        redoAll merged rest (Value.setAt first.path v candidate) := by
      simp only [redoAll, List.foldl_cons, redoOne_of_found found]
    rw [again]
    refine List.forall_mem_cons.2 ⟨?_, ih apart fun write member => ?_⟩
    · -- The writes behind the first leave its place alone.
      have outside := sameOutside_redoAll merged rest (Value.setAt first.path v candidate)
      rw [(outside first.path _).1, Value.at?_setAt place, found]
      exact List.forall_mem_map.2 fun write listed => (apartFirst write listed).symm
    · refine (ready write (List.mem_cons_of_mem _ member)).of_sameOutside
        (.of_beside (.setAt first.path v candidate) (List.mem_singleton_self _)) ?_
      simpa using apartFirst write member

variable {accepts : Value → Bool} {path : Path}

/-- Trying items one by one leaves alone what is apart from their sequence. -/
theorem sameBeside_salvageItems (i : Nat) (items : List Value) (candidate : Value) :
    Value.SameBeside path candidate (salvageItems accepts path i candidate items).1 := by
  -- Each item is appended or not, and nothing else happens.
  induction items generalizing i candidate with
  | nil => exact .refl _ _
  | cons item rest ih =>
    rw [salvageItems]
    split
    · exact (Value.SameBeside.modifyAt path _ candidate).trans (ih _ _)
    · exact ih _ _

/-- Trying well-formed items one by one keeps a value well formed. -/
theorem wellFormed_salvageItems (i : Nat) {items : List Value}
    (formedItems : ∀ item ∈ items, item.WellFormed) (formed : candidate.WellFormed) :
    (salvageItems accepts path i candidate items).1.WellFormed := by
  induction items generalizing i candidate with
  | nil => exact formed
  | cons item rest ih =>
    obtain ⟨first, later⟩ := List.forall_mem_cons.1 formedItems
    rw [salvageItems]
    split
    · refine ih _ later (formed.modifyAt path fun part within => ?_)
      cases part with
      | array before =>
        -- The sequence holds what it held before, and the new item behind it.
        rw [Value.pushItem, Value.wellFormed_array]
        intro item member
        rcases List.mem_append.1 member with old | new
        · exact Value.wellFormed_array.1 within item old
        · exact List.mem_singleton.1 new ▸ first
      | _ => exact within
    · exact ih _ later formed

/-- Trying entries one by one leaves alone what is apart from their map. -/
theorem sameBeside_salvageEntries (entries : Fields) (candidate : Value) :
    Value.SameBeside path candidate (salvageEntries accepts path candidate entries).1 := by
  induction entries generalizing candidate with
  | nil => exact .refl _ _
  | cons entry rest ih =>
    obtain ⟨k, v⟩ := entry
    have trial := Value.SameBeside.modifyAt path (Value.setStep (.key k) v) candidate
    rw [salvageEntries]
    -- An entry that is refused is removed again, along the same route.
    split
    · exact trial.trans (ih _)
    · exact (trial.trans (Value.SameBeside.modifyAt path _ _)).trans (ih _)

/-- Trying well-formed entries one by one keeps a value well formed. -/
theorem wellFormed_salvageEntries {entries : Fields}
    (formedEntries : ∀ entry ∈ entries, entry.2.WellFormed) (formed : candidate.WellFormed) :
    (salvageEntries accepts path candidate entries).1.WellFormed := by
  induction entries generalizing candidate with
  | nil => exact formed
  | cons entry rest ih =>
    obtain ⟨k, v⟩ := entry
    obtain ⟨first, later⟩ := List.forall_mem_cons.1 formedEntries
    have trial : (candidate.modifyAt path (Value.setStep (.key k) v)).WellFormed :=
      formed.modifyAt path fun part within => within.setStep _ first
    rw [salvageEntries]
    split
    · exact ih later trial
    · exact ih later (trial.modifyAt path fun part within => within.eraseStep _)

/-- Of the entries that are tried each one stands in the map in the end, or is lost. -/
theorem at?_salvageEntries (accepts : Value → Bool) {entries kept : Fields}
    (distinct : (entries.map (·.1)).Nodup)
    (here : candidate.at? path = some (.object kept)) :
    ∃ left, (salvageEntries accepts path candidate entries).1.at? path = some (.object left) ∧
      (∀ k, k ∉ entries.map (·.1) → Keyed.get? k left = Keyed.get? k kept) ∧
      ∀ entry ∈ entries, Keyed.get? entry.1 left = some entry.2 ∨
        lossOf (path.key entry.1) entry.2 ⊆
          (salvageEntries accepts path candidate entries).2 := by
  -- The entries behind the first have other keys, so what became of it does not change again.
  induction entries generalizing candidate kept with
  | nil => exact ⟨kept, here, fun _ _ => rfl, by simp⟩
  | cons entry rest ih =>
    obtain ⟨k, v⟩ := entry
    obtain ⟨fresh, distinct⟩ := List.nodup_cons.1 distinct
    have trial : (candidate.modifyAt path (Value.setStep (.key k) v)).at? path =
        some (.object (Keyed.put k v kept)) := by
      rw [Value.at?_modifyAt, here]
      rfl
    rw [salvageEntries]
    split
    · -- The entry is accepted, and stays.
      obtain ⟨left, ends, others, each⟩ := ih distinct trial
      refine ⟨left, ends, ?_, List.forall_mem_cons.2 ⟨.inl ?_, each⟩⟩
      · intro other absent
        obtain ⟨different, absent⟩ := not_or.1 (mt List.mem_cons.2 absent)
        rw [others other absent, Keyed.get?_put_of_ne (Ne.symm different)]
      · rw [others k fresh, Keyed.get?_put_self]
    · -- The entry is refused, and lost with its whole value.
      have without : ((candidate.modifyAt path (Value.setStep (.key k) v)).modifyAt path
          (Value.eraseStep (.key k))).at? path =
            some (.object (Keyed.erase k (Keyed.put k v kept))) := by
        rw [Value.at?_modifyAt, trial]
        rfl
      obtain ⟨left, ends, others, each⟩ := ih distinct without
      refine ⟨left, ends, ?_, List.forall_mem_cons.2 ⟨.inr ?_, ?_⟩⟩
      · intro other absent
        obtain ⟨different, absent⟩ := not_or.1 (mt List.mem_cons.2 absent)
        rw [others other absent, Keyed.get?_erase_of_ne (Ne.symm different),
          Keyed.get?_put_of_ne (Ne.symm different)]
      · exact List.subset_append_left _ _
      · intro entry member
        refine (each entry member).imp id fun lost => ?_
        exact List.Subset.trans lost (List.subset_append_right _ _)

/-- Writes that have settled, with nothing changed outside of them. -/
structure Redone (merged before : Value) (writes : List Write) (after : Value)
    (losses : List Loss) : Prop where
  outside : Value.SameOutside (writes.map (·.path)) before after
  wellFormed : after.WellFormed
  settled : ∀ write ∈ writes, write.Settled merged after losses

/-- A single refused write settles. -/
theorem redone_salvageWrite (formedMerged : merged.WellFormed) {write : Write}
    (ready : write.Ready merged candidate) (formed : candidate.WellFormed) :
    Redone merged candidate [write] (salvageWrite accepts merged write candidate).1
      (salvageWrite accepts merged write candidate).2 := by
  obtain ⟨⟨v, found⟩, _, emptied⟩ := ready
  have formedPart := formedMerged.at? found
  have lost : Redone merged candidate [write] candidate (lossOf write.path v) :=
    ⟨.refl _ _, formed, List.forall_mem_singleton.2
      ⟨v, found, .inr (.inl (List.Subset.refl _))⟩⟩
  simp only [salvageWrite, found]
  -- Sequences and maps are tried part by part, anything else is lost as a whole.
  split
  · next items _ =>
    exact ⟨.of_beside (sameBeside_salvageItems 0 items candidate) (List.mem_singleton_self _),
      wellFormed_salvageItems 0 (Value.wellFormed_array.1 formedPart) formed,
      List.forall_mem_singleton.2 ⟨_, found, .inr (.inr (.inl ⟨items, rfl⟩))⟩⟩
  · next entries isMap =>
    obtain ⟨left, ends, _, each⟩ :=
      at?_salvageEntries accepts formedPart.distinct (emptied isMap)
    exact ⟨.of_beside (sameBeside_salvageEntries entries candidate) (List.mem_singleton_self _),
      wellFormed_salvageEntries (Value.wellFormed_object.1 formedPart).2 formed,
      List.forall_mem_singleton.2
        ⟨_, found, .inr (.inr (.inr ⟨entries, left, rfl, ends, each⟩))⟩⟩
  · exact lost

/-- Writes that are all made again have settled. -/
theorem redone_redoAll (formedMerged : merged.WellFormed) {writes : List Write}
    (apart : Write.AllApart writes) (ready : ∀ write ∈ writes, write.Ready merged candidate)
    (formed : candidate.WellFormed) :
    Redone merged candidate writes (redoAll merged writes candidate) [] := by
  -- Every write stands as the merged value has it, so nothing is lost.
  refine ⟨sameOutside_redoAll merged writes candidate,
    wellFormed_redoAll formedMerged writes formed, ?_⟩
  intro write member
  obtain ⟨v, found⟩ := (ready write member).found
  exact ⟨v, found, .inl ((at?_redoAll apart ready write member).trans found)⟩

/-- Two groups of writes that are apart settle one after the other. -/
theorem Redone.append {middle after : Value} {left right : List Write}
    {lossesLeft lossesRight : List Loss}
    (first : Redone merged candidate left middle lossesLeft)
    (second : Redone merged middle right after lossesRight)
    (apart : ∀ a ∈ left, ∀ b ∈ right, a.path.Apart b.path) :
    Redone merged candidate (left ++ right) after (lossesLeft ++ lossesRight) := by
  refine ⟨?_, second.wellFormed, ?_⟩
  · rw [List.map_append]
    have wider := second.outside.trans (.refl _ after)
      (List.subset_append_right (left.map (·.path)) _)
    exact first.outside.trans wider (List.subset_append_left _ _)
  · intro write member
    rcases List.mem_append.1 member with before | now
    · -- The second group leaves the places of the first one alone.
      refine (first.settled write before).mono (second.outside write.path ?_).1
        (List.subset_append_left _ _)
      exact List.forall_mem_map.2 fun other inside => (apart write before other inside).symm
    · exact (second.settled write now).mono rfl (List.subset_append_right _ _)

/--
What holds of writes that are made again at once and of a single refused write, and is passed from
two groups of writes to both together, holds of all that halving does; and all writes settle.
-/
theorem redo_induction (accepts : Value → Bool) (formedMerged : merged.WellFormed)
    {motive : List Write → Value → Value → List Loss → Prop}
    (again : ∀ writes before, Write.AllApart writes →
      (∀ write ∈ writes, write.Ready merged before) →
      (writes = [] ∨ accepts (redoAll merged writes before) = true) →
      motive writes before (redoAll merged writes before) [])
    (single : ∀ write before, write.Ready merged before →
      accepts (redoAll merged [write] before) = false →
      motive [write] before (salvageWrite accepts merged write before).1
        (salvageWrite accepts merged write before).2)
    (append : ∀ left right before middle after lossesLeft lossesRight,
      (∀ a ∈ left, ∀ b ∈ right, a.path.Apart b.path) →
      Redone merged before left middle lossesLeft → Redone merged middle right after lossesRight →
      motive left before middle lossesLeft → motive right middle after lossesRight →
      motive (left ++ right) before after (lossesLeft ++ lossesRight))
    {writes : List Write} (apart : Write.AllApart writes)
    (ready : ∀ write ∈ writes, write.Ready merged candidate) (formed : candidate.WellFormed) :
    Redone merged candidate writes (redo accepts merged writes candidate).1
        (redo accepts merged writes candidate).2 ∧
      motive writes candidate (redo accepts merged writes candidate).1
        (redo accepts merged writes candidate).2 := by
  -- Both halves of two writes or more are shorter than all of them.
  induction size : writes.length using Nat.strongRecOn generalizing writes candidate with
  | ind size' ih =>
    have whole := redone_redoAll formedMerged apart ready formed
    have made := again writes candidate apart ready
    match writes with
    | [] =>
      rw [redo]
      exact ⟨whole, made (.inl rfl)⟩
    | [write] =>
      have readyWrite := ready write List.mem_cons_self
      rw [redo]
      split
      · next fits => exact ⟨whole, made (.inr fits)⟩
      · next refused =>
        exact ⟨redone_salvageWrite formedMerged readyWrite formed,
          single write candidate readyWrite (Bool.eq_false_iff.2 refused)⟩
    | first :: second :: rest =>
      rw [redo]
      split
      · next fits => exact ⟨whole, made (.inr fits)⟩
      · generalize writes_eq : first :: second :: rest = all at apart ready size ⊢
        have long : 2 ≤ all.length := by simp [← writes_eq]
        have halves := List.take_append_drop (all.length / 2) all
        have parts := List.pairwise_append.1 (halves ▸ apart)
        obtain ⟨left, holdsLeft⟩ := ih _ (by rw [List.length_take]; omega) parts.1
          (fun write member => ready write (List.mem_of_mem_take member)) formed rfl
        -- What the left half does is apart from the writes of the right half.
        have readyRight : ∀ write ∈ all.drop (all.length / 2), write.Ready merged
            (redo accepts merged (all.take (all.length / 2)) candidate).1 := by
          intro write member
          refine (ready write (List.mem_of_mem_drop member)).of_sameOutside left.outside ?_
          exact List.forall_mem_map.2 fun other inside => parts.2.2 other inside write member
        obtain ⟨right, holdsRight⟩ := ih _ (by rw [List.length_drop]; omega) parts.2.1 readyRight
          left.wellFormed rfl
        have both := left.append right parts.2.2
        have holds := append _ _ _ _ _ _ _ parts.2.2 left right holdsLeft holdsRight
        rw [halves] at both holds
        exact ⟨both, holds⟩

/-- Whatever is refused, halving lets all writes settle. -/
theorem redone_redo (accepts : Value → Bool) (formedMerged : merged.WellFormed)
    {writes : List Write}
    (apart : Write.AllApart writes) (ready : ∀ write ∈ writes, write.Ready merged candidate)
    (formed : candidate.WellFormed) :
    Redone merged candidate writes (redo accepts merged writes candidate).1
      (redo accepts merged writes candidate).2 :=
  (redo_induction accepts formedMerged (motive := fun _ _ _ _ => True) (fun _ _ _ _ _ => trivial)
    (fun _ _ _ _ => trivial) (fun _ _ _ _ _ _ _ _ _ _ _ _ => trivial) apart ready formed).1

end Redo

end Triversion
