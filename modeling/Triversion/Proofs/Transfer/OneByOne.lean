import Triversion.Proofs.Transfer.Acceptance
import Triversion.Proofs.Transfer.Decided

/-!
Halving against trying writes one by one.

A group of writes that is accepted as a whole is accepted write by write if every part of it is
accepted as well. Then halving only saves trials: it ends where a plain loop over the writes ends.
-/

namespace Triversion

/-- Makes writes again one by one, each as far as the candidate stays acceptable. -/
def redoEach (accepts : Value → Bool) (merged : Value) : List Write → Value → Value × List Loss
  | [], candidate => (candidate, [])
  | write :: rest, candidate =>
    let (middle, losses) := redo accepts merged [write] candidate
    let (last, others) := redoEach accepts merged rest middle
    (last, losses ++ others)

/-- With some of the writes a candidate is accepted only if it is with every part of them. -/
def ClosedDown (accepts : Value → Bool) (merged : Value) (writes : List Write)
    (candidate : Value) : Prop :=
  ∀ made part : List Write, made.Sublist writes → part.Sublist made →
    accepts (redoAll merged made candidate) = true →
      accepts (redoAll merged part candidate) = true

/-- With some of the writes a candidate is accepted exactly if each of them is taken. -/
def DecidedBy (takes : Write → Bool) (accepts : Value → Bool) (merged : Value)
    (writes : List Write) (candidate : Value) : Prop :=
  ∀ made : List Write, made.Sublist writes →
    accepts (redoAll merged made candidate) = made.all takes

/-- Whether a write that is refused is tried in parts. -/
def Write.HasParts (merged : Value) (write : Write) : Prop :=
  (write.reversal = .emptySequence ∧ ∃ items, merged.at? write.path = some (.array items)) ∨
    (write.reversal = .emptyMap ∧ ∃ entries, merged.at? write.path = some (.object entries))

/-- What is reported of a refused write: its value, or items or entries of it. -/
structure Write.Reports (merged : Value) (write : Write) (losses : List Loss) : Prop where
  below : ∀ loss ∈ losses, loss.Below merged [write]
  whole : ∀ v, merged.at? write.path = some v → ¬ write.HasParts merged →
    losses = lossOf write.path v

section Single

variable (accepts : Value → Bool) (merged : Value)

/-- Trying items changes the sequence alone. -/
theorem exists_modifyAt_salvageItems (path : Path) (i : Nat) (items : List Value)
    (candidate : Value) :
    ∃ f, (salvageItems accepts path i candidate items).1 = candidate.modifyAt path f := by
  induction items generalizing i candidate with
  | nil => exact ⟨id, (Value.modifyAt_eq_self fun _ _ => rfl).symm⟩
  | cons item rest ih =>
    rw [salvageItems]
    split
    · obtain ⟨f, changed⟩ := ih (i + 1) (candidate.modifyAt path (Value.pushItem item))
      exact ⟨f ∘ Value.pushItem item, by rw [changed, Value.modifyAt_modifyAt]⟩
    · exact ih (i + 1) candidate

/-- Trying entries changes the map alone. -/
theorem exists_modifyAt_salvageEntries (path : Path) (entries : Fields) (candidate : Value) :
    ∃ f, (salvageEntries accepts path candidate entries).1 = candidate.modifyAt path f := by
  induction entries generalizing candidate with
  | nil => exact ⟨id, (Value.modifyAt_eq_self fun _ _ => rfl).symm⟩
  | cons entry rest ih =>
    obtain ⟨k, v⟩ := entry
    rw [salvageEntries]
    split
    · obtain ⟨f, changed⟩ := ih (candidate.modifyAt path (Value.setStep (.key k) v))
      exact ⟨_, by rw [changed, Value.modifyAt_modifyAt]⟩
    · -- A refused entry is put in and removed along the same route.
      obtain ⟨f, changed⟩ := ih ((candidate.modifyAt path (Value.setStep (.key k) v)).modifyAt
        path (Value.eraseStep (.key k)))
      exact ⟨_, by rw [changed, Value.modifyAt_modifyAt, Value.modifyAt_modifyAt]⟩

/-- A refused write changes its own place alone, if anything. -/
theorem exists_modifyAt_salvageWrite (write : Write) (candidate : Value) :
    ∃ f, (salvageWrite accepts merged write candidate).1 = candidate.modifyAt write.path f := by
  have idle : ∃ f, candidate = candidate.modifyAt write.path f :=
    ⟨id, (Value.modifyAt_eq_self fun _ _ => rfl).symm⟩
  unfold salvageWrite
  split
  · exact idle
  · split
    · exact exists_modifyAt_salvageItems accepts _ _ _ _
    · exact exists_modifyAt_salvageEntries accepts _ _ _
    · exact idle

/-- A single write is made again if that is accepted, and tried in parts or lost otherwise. -/
theorem redo_single (write : Write) (candidate : Value) :
    redo accepts merged [write] candidate =
      if accepts (redoAll merged [write] candidate) then (redoAll merged [write] candidate, [])
      else salvageWrite accepts merged write candidate := by
  rw [redo]

/-- A single write leaves alone what is apart from it. -/
theorem sameOutside_redo_single (write : Write) (candidate : Value) :
    Value.SameOutside [write.path] candidate (redo accepts merged [write] candidate).1 := by
  rw [redo_single]
  split
  · exact sameOutside_redoAll merged [write] candidate
  · obtain ⟨f, changed⟩ := exists_modifyAt_salvageWrite accepts merged write candidate
    rw [changed]
    exact .of_beside (.modifyAt _ _ _) List.mem_cons_self

/-- A single write keeps a value well formed, however it ends. -/
theorem wellFormed_redo_single {merged : Value} (formedMerged : merged.WellFormed)
    (write : Write) {candidate : Value} (formed : candidate.WellFormed) :
    (redo accepts merged [write] candidate).1.WellFormed := by
  rw [redo_single]
  split
  · exact wellFormed_redoAll formedMerged [write] formed
  · unfold salvageWrite
    split
    · exact formed
    · next v found =>
      have formedPart := formedMerged.at? found
      split
      · exact wellFormed_salvageItems 0 (Value.wellFormed_array.1 formedPart) formed
      · exact wellFormed_salvageEntries (Value.wellFormed_object.1 formedPart).2 formed
      · exact formed

/-- A single write that ends acceptably stands as merged exactly if it was accepted at once. -/
theorem at?_redo_single_iff {accepts : Value → Bool} {merged candidate v : Value} {write : Write}
    (formed : candidate.WellFormed) (found : merged.at? write.path = some v)
    (place : candidate.HasPlace write.path)
    (accepted : accepts (redo accepts merged [write] candidate).1 = true) :
    (redo accepts merged [write] candidate).1.at? write.path = merged.at? write.path ↔
      accepts (redoAll merged [write] candidate) = true := by
  have again : redoAll merged [write] candidate = Value.setAt write.path v candidate :=
    redoOne_of_found found
  rw [redo_single] at accepted ⊢
  split
  · next fits => exact ⟨fun _ => fits, fun _ => by rw [again, Value.at?_setAt place, found]⟩
  · next refused =>
    rw [if_neg refused] at accepted
    refine ⟨fun stands => ?_, fun fits => absurd fits refused⟩
    -- A candidate that differs at the place alone, and stands there as merged, is the trial.
    obtain ⟨f, changed⟩ := exists_modifyAt_salvageWrite accepts merged write candidate
    rw [changed, Value.at?_modifyAt, found] at stands
    obtain ⟨part, here, rfl⟩ := Option.map_eq_some_iff.1 stands
    rw [again, ← Value.modifyAt_eq_setAt formed here, ← changed]
    exact accepted

/-- A refused write is reported as a whole, or by what it is tried in. -/
theorem reports_salvageWrite {merged : Value} (formedMerged : merged.WellFormed) (write : Write)
    (candidate : Value) :
    write.Reports merged (salvageWrite accepts merged write candidate).2 := by
  refine ⟨below_salvageWrite accepts formedMerged write, fun v found whole => ?_⟩
  simp only [salvageWrite, found]
  split
  · next items isSequence => exact absurd (.inl ⟨isSequence, items, found⟩) whole
  · next entries isMap => exact absurd (.inr ⟨isMap, entries, found⟩) whole
  · rfl

end Single

section Each

variable {accepts : Value → Bool} {merged : Value}

/-- Two groups of writes that are tried one by one are one group that is. -/
theorem redoEach_append (left right : List Write) (candidate : Value) :
    redoEach accepts merged (left ++ right) candidate =
      ((redoEach accepts merged right (redoEach accepts merged left candidate).1).1,
        (redoEach accepts merged left candidate).2 ++
          (redoEach accepts merged right (redoEach accepts merged left candidate).1).2) := by
  induction left generalizing candidate with
  | nil => rfl
  | cons write rest ih => simp only [List.cons_append, redoEach, ih, List.append_assoc]

/-- Trying writes one by one leaves alone what is apart from them. -/
theorem sameOutside_redoEach (writes : List Write) (candidate : Value) :
    Value.SameOutside (writes.map (·.path)) candidate
      (redoEach accepts merged writes candidate).1 := by
  induction writes generalizing candidate with
  | nil => exact .refl _ _
  | cons write rest ih =>
    have first := sameOutside_redo_single accepts merged write candidate
    intro other apart
    obtain ⟨apartFirst, apart⟩ := List.forall_mem_cons.1 apart
    obtain ⟨readsFirst, placeFirst⟩ := first other (by simpa using apartFirst)
    obtain ⟨reads, place⟩ := ih (redo accepts merged [write] candidate).1 other apart
    exact ⟨reads.trans readsFirst, place ∘ placeFirst⟩

/-- Writes that are accepted as far as they are made are all made one by one. -/
theorem redoEach_of_accepted {writes : List Write} {candidate : Value}
    (accepted : ∀ part, part <+: writes → accepts (redoAll merged part candidate) = true) :
    redoEach accepts merged writes candidate = (redoAll merged writes candidate, []) := by
  induction writes generalizing candidate with
  | nil => rfl
  | cons write rest ih =>
    have first : redo accepts merged [write] candidate =
        (redoAll merged [write] candidate, []) := by
      rw [redo_single, if_pos (accepted [write] ⟨rest, rfl⟩)]
    -- Behind the first write the others are made as far as before, on top of it.
    have later : redoEach accepts merged rest (redoAll merged [write] candidate) =
        (redoAll merged rest (redoAll merged [write] candidate), []) :=
      ih fun part begins =>
        accepted (write :: part) (List.prefix_cons_iff.2 (.inr ⟨part, rfl, begins⟩))
    simp only [redoEach, first, later, List.nil_append]
    rfl

/-- What is closed for all writes is closed for some of them. -/
theorem ClosedDown.of_sublist {writes others : List Write} {candidate : Value}
    (closed : ClosedDown accepts merged writes candidate) (part : others.Sublist writes) :
    ClosedDown accepts merged others candidate :=
  fun made inner inside => closed made inner (inside.trans part)

/-- Writes that are accepted together are made together. -/
theorem redo_of_accepted {writes : List Write} {candidate : Value}
    (fits : accepts (redoAll merged writes candidate) = true) :
    redo accepts merged writes candidate = (redoAll merged writes candidate, []) := by
  match writes with
  | [] =>
    rw [redo]
    rfl
  | [write] => rw [redo_single, if_pos fits]
  | first :: second :: rest => rw [redo, if_pos fits]

/-- Two writes or more that are refused together are made again in halves. -/
theorem redo_of_refused {writes : List Write} {candidate : Value} (several : 2 ≤ writes.length)
    (refused : ¬ accepts (redoAll merged writes candidate) = true) :
    redo accepts merged writes candidate =
      ((redo accepts merged (writes.drop (writes.length / 2))
          (redo accepts merged (writes.take (writes.length / 2)) candidate).1).1,
        (redo accepts merged (writes.take (writes.length / 2)) candidate).2 ++
          (redo accepts merged (writes.drop (writes.length / 2))
            (redo accepts merged (writes.take (writes.length / 2)) candidate).1).2) := by
  match writes with
  | [] => simp at several
  | [write] => simp at several
  | first :: second :: rest => rw [redo, if_neg refused]

/-- Halving is trying one by one if acceptance is closed where that passes through. -/
theorem redo_eq_redoEach {writes : List Write} {candidate : Value}
    (closed : ∀ earlier later, earlier ++ later = writes →
      ClosedDown accepts merged later (redoEach accepts merged earlier candidate).1) :
    redo accepts merged writes candidate = redoEach accepts merged writes candidate := by
  -- Both halves of two writes or more are shorter than all of them.
  induction size : writes.length using Nat.strongRecOn generalizing writes candidate with
  | ind size' ih =>
    by_cases fits : accepts (redoAll merged writes candidate) = true
    · -- What is accepted as a whole is accepted after each of its writes.
      rw [redo_of_accepted fits, redoEach_of_accepted fun part begins => ?_]
      exact closed [] writes rfl _ part (List.Sublist.refl _) begins.sublist fits
    · rcases Nat.lt_or_ge writes.length 2 with few | several
      · match writes with
        | [] => rw [redo, redoEach]
        | [write] => simp only [redoEach, List.append_nil]
      · obtain ⟨front, back, halves, half⟩ : ∃ front back, front ++ back = writes ∧
            (writes.take (writes.length / 2) = front ∧ writes.drop (writes.length / 2) = back) :=
          ⟨_, _, List.take_append_drop _ _, rfl, rfl⟩
        have closedFront : ∀ earlier later, earlier ++ later = front →
            ClosedDown accepts merged later (redoEach accepts merged earlier candidate).1 :=
          fun earlier later both => (closed earlier (later ++ back)
            (by rw [← List.append_assoc, both, halves])).of_sublist
              (List.sublist_append_left later back)
        -- The second half starts where the first one has been tried one by one.
        have closedBack : ∀ earlier later, earlier ++ later = back → ClosedDown accepts merged later
            (redoEach accepts merged earlier (redoEach accepts merged front candidate).1).1 := by
          intro earlier later both
          have further := closed (front ++ earlier) later
            (by rw [List.append_assoc, both, halves])
          rwa [redoEach_append] at further
        have shorter : front.length < size' ∧ back.length < size' := by
          rw [← half.1, ← half.2, List.length_take, List.length_drop]
          omega
        rw [redo_of_refused several fits, half.1, half.2, ih _ shorter.1 closedFront rfl,
          ih _ shorter.2 closedBack rfl, ← redoEach_append, halves]

/-- Of writes that are decided one by one, those that are taken stand, and the rest is reported. -/
theorem redoEach_of_decided {takes : Write → Bool} (formedMerged : merged.WellFormed)
    {writes : List Write} {candidate : Value} (formed : candidate.WellFormed)
    (apart : Write.AllApart writes) (found : ∀ write ∈ writes, ∃ v, merged.at? write.path = some v)
    (places : ∀ write ∈ writes, candidate.HasPlace write.path)
    (decided : ∀ earlier later, earlier ++ later = writes →
      DecidedBy takes accepts merged later (redoEach accepts merged earlier candidate).1) :
    (∀ write ∈ writes, (redoEach accepts merged writes candidate).1.at? write.path =
        merged.at? write.path ↔ takes write = true) ∧
      ∃ reports : List (Write × List Loss), reports.map (·.1) = writes ∧
        (redoEach accepts merged writes candidate).2 = reports.flatMap (·.2) ∧
        ∀ report ∈ reports, (takes report.1 = true → report.2 = []) ∧
          (takes report.1 = false → report.1.Reports merged report.2) := by
  induction writes generalizing candidate with
  | nil => exact ⟨by simp, [], rfl, rfl, by simp⟩
  | cons write rest ih =>
    obtain ⟨apartFirst, apart⟩ := List.pairwise_cons.1 apart
    obtain ⟨⟨v, foundFirst⟩, found⟩ := List.forall_mem_cons.1 found
    obtain ⟨place, places⟩ := List.forall_mem_cons.1 places
    -- What is decided of the first write is whether it is accepted at once.
    have taken : accepts (redoAll merged [write] candidate) = takes write :=
      (decided [] _ rfl [write] (List.singleton_sublist.2 List.mem_cons_self)).trans (by simp)
    have accepted : accepts (redo accepts merged [write] candidate).1 = true :=
      decided [write] rest rfl [] (List.nil_sublist _)
    have outside := sameOutside_redo_single accepts merged write candidate
    obtain ⟨stand, reports, all, losses, each⟩ := ih
      (wellFormed_redo_single accepts formedMerged write formed) apart found
      (fun other member => (outside other.path (by simpa using apartFirst other member)).2
        (places other member))
      (fun earlier later both => decided (write :: earlier) later (congrArg (write :: ·) both))
    -- The writes behind the first leave its place alone.
    have kept : (redoEach accepts merged (write :: rest) candidate).1.at? write.path =
        (redo accepts merged [write] candidate).1.at? write.path :=
      (sameOutside_redoEach rest _ write.path (List.forall_mem_map.2
        fun other member => (apartFirst other member).symm)).1
    refine ⟨List.forall_mem_cons.2 ⟨?_, stand⟩,
      (write, (redo accepts merged [write] candidate).2) :: reports, ?_, ?_, ?_⟩
    · rw [kept, at?_redo_single_iff formed foundFirst place accepted, taken]
    · rw [List.map_cons, all]
    · simp only [redoEach, losses, List.flatMap_cons]
    · refine List.forall_mem_cons.2 ⟨⟨fun fits => ?_, fun refused => ?_⟩, each⟩
      · rw [redo_single, if_pos (taken.trans fits)]
      · rw [redo_single, if_neg (by rw [taken, refused]; exact Bool.false_ne_true)]
        exact reports_salvageWrite accepts formedMerged write candidate

/-- Where writes are decided one by one, acceptance is closed. -/
theorem DecidedBy.closedDown {takes : Write → Bool} {writes : List Write} {candidate : Value}
    (decided : DecidedBy takes accepts merged writes candidate) :
    ClosedDown accepts merged writes candidate := by
  intro made part inside smaller accepted
  rw [decided made inside, List.all_eq_true] at accepted
  rw [decided part (smaller.trans inside), List.all_eq_true]
  exact fun write member => accepted write (smaller.subset member)

/-- Trying writes one by one leaves an acceptable candidate acceptable. -/
theorem accepts_redoEach (formedMerged : merged.WellFormed) {writes : List Write}
    {candidate : Value} (apart : Write.AllApart writes)
    (ready : ∀ write ∈ writes, write.Ready merged candidate) (formed : candidate.WellFormed)
    (accepted : accepts candidate = true) :
    accepts (redoEach accepts merged writes candidate).1 = true := by
  induction writes generalizing candidate with
  | nil => exact accepted
  | cons write rest ih =>
    obtain ⟨apartFirst, apart⟩ := List.pairwise_cons.1 apart
    obtain ⟨readyFirst, ready⟩ := List.forall_mem_cons.1 ready
    have outside := sameOutside_redo_single accepts merged write candidate
    refine ih apart (fun other member => (ready other member).of_sameOutside outside
      (by simpa using apartFirst other member))
      (wellFormed_redo_single accepts formedMerged write formed) ?_
    exact accepts_redo formedMerged (List.pairwise_singleton _ _)
      (List.forall_mem_singleton.2 readyFirst) formed accepted

end Each

section Steady

variable {root : Shape} {accepts : Value → Bool} {merged candidate : Value}

/-- A value of steady structure decides writes one by one. -/
theorem decidedBy_of_steady (steady : root.everywhere Shape.isSteady = true)
    (decides : ∀ v, accepts v = (root.rebuild v).isSome) {writes : List Write}
    (apart : Write.AllApart writes) (ready : ∀ write ∈ writes, write.Ready merged candidate)
    (passes : ∀ write ∈ writes, Shape.Passes write.path root)
    (accepted : accepts candidate = true) :
    DecidedBy (root.keeps merged) accepts merged writes candidate := by
  intro made inside
  replace apart := apart.sublist inside
  replace ready := fun write member => ready write (inside.subset member)
  replace passes := fun write member => passes write (inside.subset member)
  clear inside
  rw [Bool.eq_iff_iff, List.all_eq_true]
  refine ⟨keeps_of_accepted steady decides apart ready passes, fun kept => ?_⟩
  -- The writes behind the first one are as ready on top of it.
  induction made generalizing candidate with
  | nil => exact accepted
  | cons write rest ih =>
    obtain ⟨apartFirst, apart⟩ := List.pairwise_cons.1 apart
    obtain ⟨readyFirst, ready⟩ := List.forall_mem_cons.1 ready
    obtain ⟨keptFirst, kept⟩ := List.forall_mem_cons.1 kept
    have outside := sameOutside_redoAll merged [write] candidate
    exact ih (accepted_of_keeps steady decides readyFirst accepted keptFirst) apart
      (fun other member => (ready other member).of_sameOutside outside
        (by simpa using apartFirst other member))
      (fun other member => passes other (List.mem_cons_of_mem _ member)) kept

/-- A value of steady structure decides writes one by one while they are tried one by one. -/
theorem decided_of_steady (steady : root.everywhere Shape.isSteady = true)
    (decides : ∀ v, accepts v = (root.rebuild v).isSome) (formedMerged : merged.WellFormed)
    {writes : List Write} (apart : Write.AllApart writes)
    (ready : ∀ write ∈ writes, write.Ready merged candidate) (formed : candidate.WellFormed)
    (passes : ∀ write ∈ writes, Shape.Passes write.path root)
    (accepted : accepts candidate = true) (earlier later : List Write)
    (both : earlier ++ later = writes) :
    DecidedBy (root.keeps merged) accepts merged later
      (redoEach accepts merged earlier candidate).1 := by
  subst both
  obtain ⟨apartEarlier, apartLater, between⟩ := List.pairwise_append.1 apart
  obtain ⟨readyEarlier, readyLater⟩ := List.forall_mem_append.1 ready
  refine decidedBy_of_steady steady decides apartLater (fun write member => ?_)
    (fun write member => passes write (List.mem_append_right _ member))
    (accepts_redoEach formedMerged apartEarlier readyEarlier formed accepted)
  exact (readyLater write member).of_sameOutside (sameOutside_redoEach earlier candidate)
    (List.forall_mem_map.2 fun other inside => between other inside write member)

end Steady

/--
Halving ends as trying the writes one by one does, with the same candidate and the same losses.

It is enough that acceptance is closed on the candidates that the loop passes through, for the
writes that are still to come. If there they are even decided one by one, the verdict is that of
each write alone: those that are taken stand in the end as merged, and the others are reported.
-/
theorem halving_is_one_by_one {accepts : Value → Bool} {merged candidate : Value}
    {writes : List Write} (formedMerged : merged.WellFormed) (formed : candidate.WellFormed)
    (apart : Write.AllApart writes) (found : ∀ write ∈ writes, ∃ v, merged.at? write.path = some v)
    (places : ∀ write ∈ writes, candidate.HasPlace write.path)
    (closed : ∀ earlier later, earlier ++ later = writes →
      ClosedDown accepts merged later (redoEach accepts merged earlier candidate).1) :
    redo accepts merged writes candidate = redoEach accepts merged writes candidate ∧
      ∀ takes : Write → Bool,
        (∀ earlier later, earlier ++ later = writes →
          DecidedBy takes accepts merged later (redoEach accepts merged earlier candidate).1) →
        (∀ write ∈ writes, accepts (redoAll merged [write] candidate) = takes write) ∧
        (∀ write ∈ writes, (redo accepts merged writes candidate).1.at? write.path =
          merged.at? write.path ↔ takes write = true) ∧
        ∃ reports : List (Write × List Loss), reports.map (·.1) = writes ∧
          (redo accepts merged writes candidate).2 = reports.flatMap (·.2) ∧
          ∀ report ∈ reports, (takes report.1 = true → report.2 = []) ∧
            (takes report.1 = false → report.1.Reports merged report.2) := by
  have same := redo_eq_redoEach closed
  refine ⟨same, fun takes decided => ⟨fun write member => ?_, ?_⟩⟩
  · exact (decided [] writes rfl [write] (List.singleton_sublist.2 member)).trans (by simp)
  · rw [same]
    exact redoEach_of_decided formedMerged formed apart found places decided

/-- A struct with a text where a number may be, and with a text among its ports. -/
def oddPorts : Value :=
  .object [("Count", .string "x"), ("Mode", .string "m"),
    ("Ports", .array [.whole 80, .string "http"]), ("Rules", .object []), ("Size", .whole 5)]

/-- The writes that lead from the default to the struct with odd ports. -/
def oddWrites : List Write :=
  [⟨Path.root.field "Count", .restore .null⟩, ⟨Path.root.field "Mode", .restore (.string "")⟩,
    ⟨Path.root.field "Ports", .emptySequence⟩, ⟨Path.root.field "Size", .restore (.whole 0)⟩]

/-- Of four writes two are refused, and of the ports among them the fitting one is kept. -/
theorem halving_is_one_by_one_of_ports :
    redo (Transfer.accepts (Catalog.plain.codec "Plain")) oddPorts oddWrites
        Catalog.plain.initial =
      redoEach (Transfer.accepts (Catalog.plain.codec "Plain")) oddPorts oddWrites
        Catalog.plain.initial ∧
    ∀ write ∈ oddWrites,
      (redo (Transfer.accepts (Catalog.plain.codec "Plain")) oddPorts oddWrites
        Catalog.plain.initial).1.at? write.path = oddPorts.at? write.path ↔
          Catalog.plain.keeps oddPorts write = true := by
  have formedMerged : oddPorts.WellFormed :=
    ⟨by decide, trivial, trivial, ⟨trivial, trivial, trivial⟩, ⟨by decide, trivial⟩, trivial,
      trivial⟩
  have formed : Catalog.plain.initial.WellFormed :=
    ⟨by decide, trivial, trivial, trivial, ⟨by decide, trivial⟩, trivial, trivial⟩
  have apart : Write.AllApart oddWrites := by
    simp [Write.AllApart, oddWrites, Path.root, Path.field, Path.Apart, Segment.bare]
  have ready : ∀ write ∈ oddWrites, write.Ready oddPorts Catalog.plain.initial := by
    simp only [oddWrites, List.forall_mem_cons]
    exact ⟨⟨⟨_, rfl⟩, trivial, by simp⟩, ⟨⟨_, rfl⟩, trivial, by simp⟩, ⟨⟨_, rfl⟩, trivial, by simp⟩,
      ⟨⟨_, rfl⟩, trivial, by simp⟩, by simp⟩
  have passes : ∀ write ∈ oddWrites, Shape.Passes write.path Catalog.plain := by
    simp only [oddWrites, List.forall_mem_cons]
    exact ⟨⟨_, rfl, fun _ _ => trivial⟩, ⟨_, rfl, fun _ _ => trivial⟩, ⟨_, rfl, fun _ _ => trivial⟩,
      ⟨_, rfl, fun _ _ => trivial⟩, by simp⟩
  have steady : Catalog.plain.everywhere Shape.isSteady = true := by decide
  have decides : ∀ v, Transfer.accepts (Catalog.plain.codec "Plain") v =
      (Catalog.plain.rebuild v).isSome := Transfer.accepts_iff fun _ x _ => ⟨x, rfl⟩
  have decided := decided_of_steady steady decides formedMerged apart ready formed passes rfl
  obtain ⟨same, verdicts⟩ := halving_is_one_by_one formedMerged formed apart
    (fun write member => (ready write member).found)
    (fun write member => (ready write member).place)
    fun earlier later both => (decided earlier later both).closedDown
  exact ⟨same, (verdicts _ decided).2.1⟩

end Triversion
