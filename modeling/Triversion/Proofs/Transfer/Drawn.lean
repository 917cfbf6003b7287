import Triversion.Proofs.Transfer.Calls
import Triversion.Proofs.Transfer.Candidate
import Triversion.Proofs.Transfer.Fate

/-!
What a candidate has at the route of a call.

A candidate is drawn from the merged whole: apart from all writes it is as merged, and at the place
of a write it is as merged, or as before the write, or as merged in part. So a call that writes
nothing stands in the candidate, and one that is made of calls stands there with parts of its own.
-/

namespace Triversion

/-- A route that leads on leads to a part that admits the next step. -/
theorem Value.HasPlace.at? {before : Path} {segment : Segment} {after : Path} {v : Value}
    (place : v.HasPlace (before ++ segment :: after)) :
    ∃ part, v.at? before = some part ∧ part.Admits segment := by
  induction before generalizing v with
  | nil =>
    cases after with
    | nil => exact ⟨v, rfl, place⟩
    | cons _ _ =>
      obtain ⟨part, found, _⟩ := place
      exact ⟨v, rfl, Value.admits_of_step? found⟩
  | cons first rest ih =>
    -- There is a step behind the first one, so the first one leads to a part.
    have leads : ∃ part, v.step? first = some part ∧ part.HasPlace (rest ++ segment :: after) := by
      cases rest <;> exact place
    obtain ⟨next, found, place⟩ := leads
    obtain ⟨part, later, admits⟩ := ih place
    exact ⟨part, by rw [Value.at?, found, Option.bind_some, later], admits⟩

/-- Every write of a call that is taken back by removing something removes a field. -/
theorem MergeCall.Formed.removesField {rules : MergeRules} {call : MergeCall}
    (formed : call.Formed) :
    ∀ write ∈ (call.merged rules).journal.writes, write.RemovesField := by
  refine MergeCall.inductionOn rules (motive := fun call =>
    ∀ write ∈ (call.merged rules).journal.writes, write.RemovesField) formed ?_
  -- What is taken as one value is taken back by restoring, and only an added field by removing.
  intro call formed ih write written removes
  rcases call.cases rules with ⟨w, reversal, takes⟩ | resets | composes
  · obtain rfl := List.mem_singleton.1 (takes.merged.2 ▸ written)
    cases takes <;> simp at removes
  · simp [resets.writes] at written
  · rcases (composes.mem_writes formed).1 written with ⟨segment, next, makes, written⟩ | adds
    · exact ih segment next makes write written removes
    · obtain ⟨name, rfl, _⟩ := adds.path_eq
      exact ⟨call.path, name, rfl⟩

/-- Every write of a merge of structs that is taken back by removing something removes a field. -/
theorem removesField_mergeObjects {rules : MergeRules} {path : Path} {fields given : Fields}
    (formedThere : (Value.object fields).WellFormed) (formed : (Value.object given).WellFormed) :
    ∀ write ∈ (mergeObjects rules path fields given).journal.writes, write.RemovesField := by
  intro write written
  simp only [journal_mergeObjects _ _ formed.distinct, Journal.writes_all, List.flatMap_map,
    List.mem_flatMap] at written
  obtain ⟨⟨name, v⟩, taken, written⟩ := written
  -- A field that both sides have is a call, and any other one is new.
  cases found : Keyed.get? name fields with
  | some old =>
    have inside := (Value.wellFormed_object.1 formed).2 _ (mem_takenFields.1 taken).1
    have call : MergeCall.Formed ⟨old, path.field name, v⟩ :=
      ⟨formedThere.of_get? found, inside⟩
    simp only [found, mergeField] at written
    exact call.removesField write written
  | none =>
    simp only [found, mergeField] at written
    obtain rfl := List.mem_singleton.1 written
    exact fun _ => ⟨path, name, rfl⟩

/-- A candidate that holds every write of a merged whole, or nothing of it, or a part of it. -/
structure Drawn (merged : Merged Value) (candidate : Value) : Prop where
  outside : Value.SameOutside (merged.journal.writes.map (·.path)) merged.result candidate
  places : ∀ write ∈ merged.journal.writes, candidate.HasPlace write.path
  ends : ∀ write ∈ merged.journal.writes, ∃ before : Value,
    before.at? write.path = write.reversal.leaves ∧ write.Ends merged.result before candidate

namespace Transfer

variable {δ : Type} {exclusions : Exclusions} {codec : Codec δ} {fields given : Fields}

/-- In the bare candidate every write is taken back. -/
theorem at?_bare (exclusions : Exclusions) (codec : Codec δ)
    (formedThere : (Value.object fields).WellFormed) (formed : (Value.object given).WellFormed) :
    ∀ write ∈ (merge exclusions codec fields given).journal.writes,
      (bare exclusions codec fields given).at? write.path = write.reversal.leaves := by
  have sound := sound_merge exclusions codec formedThere formed
  exact at?_takeBackAll sound.wellFormed sound.apart (found_merge formedThere formed)
    sound.restores (removesField_mergeObjects formedThere formed)

/-- From the bare candidate on, every write ends in one of four ways. -/
theorem fate_bare (formedThere : (Value.object fields).WellFormed)
    (formed : (Value.object given).WellFormed) {whole : Value} {more : List Loss}
    (redone : redo (accepts codec) (.object (merge exclusions codec fields given).result)
      (merge exclusions codec fields given).journal.writes (bare exclusions codec fields given) =
        (whole, more)) :
    Fate (.object (merge exclusions codec fields given).result)
      (bare exclusions codec fields given) (merge exclusions codec fields given).journal.writes
      whole more := by
  have sound := sound_merge exclusions codec formedThere formed
  have fate := fate_redo (accepts codec) sound.wellFormed sound.apart
    (ready_bare formedThere formed) (wellFormed_bare formedThere formed)
    (at?_bare exclusions codec formedThere formed)
  simpa only [Merged.map, redone] using fate

/-- Halving leaves the places of all writes. -/
theorem hasPlace_redo (accepts : Value → Bool) {merged candidate : Value}
    (formedMerged : merged.WellFormed) {writes : List Write} (apart : Write.AllApart writes)
    (ready : ∀ write ∈ writes, write.Ready merged candidate) (formed : candidate.WellFormed)
    (back : ∀ write ∈ writes, candidate.at? write.path = write.reversal.leaves) :
    ∀ write ∈ writes, (redo accepts merged writes candidate).1.HasPlace write.path := by
  refine (redo_induction accepts formedMerged (motive := fun writes before after _ =>
    (∀ write ∈ writes, write.Ready merged before) →
    (∀ write ∈ writes, before.at? write.path = write.reversal.leaves) →
    ∀ write ∈ writes, after.HasPlace write.path) ?_ ?_ ?_ apart ready formed).2 ready back
  · intro writes before apart ready _ _ _ write member
    -- What is made again is found at its place.
    obtain ⟨v, found⟩ := (ready write member).found
    exact Value.hasPlace_of_at? ((at?_redoAll apart ready write member).trans found)
  · -- One write alone keeps some of what it holds, or is left where it is ready.
    intro write before ready _ _ back
    refine List.forall_mem_singleton.2 ?_
    obtain ⟨v, found⟩ := ready.found
    have fate := (fate_salvageWrite accepts formedMerged found
      (back write List.mem_cons_self)).ends write List.mem_cons_self
    simp only [salvageWrite, found]
    split
    · next items isSequence =>
      obtain ⟨kept, stands, _⟩ := at?_salvageItems accepts 0 items
        ((back write List.mem_cons_self).trans (congrArg Reversal.leaves isSequence))
      exact Value.hasPlace_of_at? stands
    · next entries isMap =>
      obtain ⟨kept, stands, _⟩ := salvageEntries_subset accepts entries
        ((back write List.mem_cons_self).trans (congrArg Reversal.leaves isMap))
      exact Value.hasPlace_of_at? stands
    · exact ready.place
  · intro left right before middle after _ _ apart first second placesLeft placesRight ready back
    have unmoved : ∀ write ∈ right, ∀ path ∈ left.map (·.path), path.Apart write.path :=
      fun write member => List.forall_mem_map.2 fun other inside => apart other inside write member
    intro write member
    rcases List.mem_append.1 member with before | now
    · -- The right group leaves the places of the left one.
      refine (second.outside write.path (List.forall_mem_map.2 fun other inside =>
        (apart write before other inside).symm)).2 ?_
      exact placesLeft (fun write member => ready write (List.mem_append_left _ member))
        (fun write member => back write (List.mem_append_left _ member)) write before
    · refine placesRight (fun write member => ?_) (fun write member => ?_) write now
      · exact (ready write (List.mem_append_right _ member)).of_sameOutside first.outside
          (unmoved write member)
      · rw [← back write (List.mem_append_right _ member)]
        exact (first.outside write.path (unmoved write member)).1

/-- The candidate that is rebuilt is drawn from the merged whole. -/
theorem drawn_candidate (formedThere : (Value.object fields).WellFormed)
    (formed : (Value.object given).WellFormed) {whole : Value} {lost : List Loss} {new : δ}
    (chosen : candidate exclusions codec fields given = (whole, lost))
    (rebuilt : codec.decode whole = some new) :
    Drawn ((merge exclusions codec fields given).map .object) whole := by
  have sound := sound_merge exclusions codec formedThere formed
  have back := at?_bare exclusions codec formedThere formed
  -- Either the merged whole is rebuilt as it is, or what halving makes of the bare one.
  rcases candidate_cases chosen rebuilt with ⟨rfl, _⟩ | ⟨more, redone, _⟩
  · refine ⟨.refl _ _, fun write member => ?_, fun write member => ?_⟩
    · obtain ⟨v, found⟩ := found_merge formedThere formed write member
      exact Value.hasPlace_of_at? found
    · exact ⟨_, back write member, .again rfl⟩
  · refine ⟨?_, ?_, fun write member => ?_⟩
    · exact (sameOutside_takeBackAll _ _).trans
        (redone_bare formedThere formed redone).outside (List.Subset.refl _)
    · have places := hasPlace_redo (accepts codec) sound.wellFormed sound.apart
        (ready_bare formedThere formed) (wellFormed_bare formedThere formed) back
      simpa only [Merged.map, redone] using places
    · exact ⟨_, back write member, (fate_bare formedThere formed redone).ends write member⟩

end Transfer

namespace MergeCall

/-- A source value that is taken back leaves the blank of the destination. -/
theorem Takes.leaves {rules : MergeRules} {call : MergeCall} {w : Value} {reversal : Reversal}
    (takes : Takes rules call w reversal) : reversal.leaves = some call.there.blank := by
  cases takes <;> rfl

/-- A call whose result and whose writes are those of the merged whole at its route. -/
structure Sits (rules : MergeRules) (whole : Merged Value) (call : MergeCall) : Prop where
  formed : call.Formed
  found : whole.result.at? call.path = some (call.merged rules).result
  own : (call.merged rules).journal.writes ⊆ whole.journal.writes
  others : ∀ write ∈ whole.journal.writes,
    write ∈ (call.merged rules).journal.writes ∨ write.path.Apart call.path

namespace Sits

variable {rules : MergeRules} {whole : Merged Value} {call next : MergeCall} {segment : Segment}

/-- A route that another one is apart from stays so if it leads on. -/
theorem apart_append {path other : Path} (apart : path.Apart other) (rest : Path) :
    path.Apart (other ++ rest) := by
  induction path generalizing other with
  | nil => simp [Path.Apart] at apart
  | cons a p ih =>
    cases other with
    | nil => simp [Path.Apart] at apart
    | cons b q => exact fun same => ih (apart same)

/-- The calls that a call makes sit in the whole with it. -/
theorem makes (sits : Sits rules whole call) (makes : Makes rules call segment next) :
    Sits rules whole next := by
  refine ⟨makes.formed sits.formed, ?_,
    List.Subset.trans (makes.writes_subset sits.formed) sits.own, fun write member => ?_⟩
  · rw [makes.path_eq, Value.at?_append, sits.found, Option.bind_some, Value.at?,
      makes.result sits.formed]
    rfl
  · rcases sits.others write member with written | apart
    · exact makes.apart sits.formed written
    · rw [makes.path_eq]
      exact .inr (apart_append apart _)

variable {candidate : Value}

/-- Where no write of a call goes the candidate is as merged. -/
theorem at?_eq (sits : Sits rules whole call) (drawn : Drawn whole candidate) (rest : Path)
    (apart : ∀ write ∈ (call.merged rules).journal.writes, write.path.Apart (call.path ++ rest)) :
    candidate.at? (call.path ++ rest) = (call.merged rules).result.at? rest := by
  -- Writes of other calls are apart from the route of this one, and so from all behind it.
  rw [(drawn.outside _ _).1, Value.at?_append, sits.found, Option.bind_some]
  refine List.forall_mem_map.2 fun write member => ?_
  exact (sits.others write member).elim (apart write) fun away => apart_append away rest

/-- What a call resets is as merged in the candidate. -/
theorem of_resets (sits : Sits rules whole call) (drawn : Drawn whole candidate)
    (resets : Resets rules call) : candidate.at? call.path = some call.there.blank := by
  have same := sits.at?_eq drawn [] (by simp [resets.writes])
  rwa [List.append_nil, Value.at?, resets.result] at same

/-- What a call takes as one value stands in what is merged, and is written there. -/
theorem written (sits : Sits rules whole call) {w : Value} {reversal : Reversal}
    (takes : Takes rules call w reversal) :
    whole.result.at? call.path = some w ∧ ⟨call.path, reversal⟩ ∈ whole.journal.writes := by
  obtain ⟨result, writes⟩ := takes.merged
  refine ⟨result ▸ sits.found, sits.own ?_⟩
  rw [writes]
  exact List.mem_singleton_self _

/-- What a call takes as one value stands in the candidate as it ends there. -/
theorem of_takes (sits : Sits rules whole call) (drawn : Drawn whole candidate) {w : Value}
    {reversal : Reversal} (takes : Takes rules call w reversal) :
    whole.result.at? call.path = some w ∧ ∃ before : Value,
      before.at? call.path = reversal.leaves ∧
        Write.Ends whole.result before candidate ⟨call.path, reversal⟩ :=
  (sits.written takes).imp_right (drawn.ends _)

/-- A call that is made of calls stands in the candidate as a value of the source's kind. -/
theorem exists_part (sits : Sits rules whole call) (drawn : Drawn whole candidate)
    (composes : Composes rules call) : ∃ part, candidate.at? call.path = some part ∧
      part.isArray = call.given.isArray ∧ part.isObject = call.given.isObject := by
  cases writes : (call.merged rules).journal.writes with
  | nil =>
    have same := sits.at?_eq drawn [] (by simp [writes])
    rw [List.append_nil] at same
    exact ⟨_, same, composes.kind⟩
  | cons write rest =>
    -- A write behind the route of the call has its place in the candidate.
    have written : write ∈ (call.merged rules).journal.writes := writes ▸ List.mem_cons_self
    obtain ⟨segment, after, route, kind⟩ := composes.behind sits.formed written
    have place := drawn.places write (sits.own written)
    rw [route] at place
    obtain ⟨part, stands, admits⟩ := place.at?
    refine ⟨part, stands, ?_⟩
    -- A position is admitted by a sequence, and a name by an object.
    cases composes <;> cases segment <;> cases part <;>
      simp_all [Value.isArray, Value.isObject, Segment.isIndex, Value.Admits]

/-- Whatever becomes of a call, something stands at its route. -/
theorem exists_at? (sits : Sits rules whole call) (drawn : Drawn whole candidate) :
    ∃ part, candidate.at? call.path = some part := by
  rcases call.cases rules with ⟨w, reversal, takes⟩ | resets | composes
  · obtain ⟨found, before, back, ends⟩ := sits.of_takes drawn takes
    cases ends with
    | again same => exact ⟨w, same.trans found⟩
    | back same => exact ⟨_, same.trans (back.trans takes.leaves)⟩
    | items _ _ stands | entries _ _ stands => exact ⟨_, stands⟩
  · exact ⟨_, sits.of_resets drawn resets⟩
  · obtain ⟨part, stands, _⟩ := sits.exists_part drawn composes
    exact ⟨part, stands⟩

/-- Where no write of a call goes behind one step, the part there is as merged. -/
theorem step?_eq (sits : Sits rules whole call) (drawn : Drawn whole candidate) {part : Value}
    (stands : candidate.at? call.path = some part)
    (apart : ∀ write ∈ (call.merged rules).journal.writes,
      write.path.Apart (call.path ++ [segment])) :
    part.step? segment = (call.merged rules).result.step? segment := by
  have same := sits.at?_eq drawn [segment] apart
  rw [Value.at?_append, stands, Option.bind_some] at same
  simpa only [Value.at?, Option.bind_fun_some] using same

/-- A step that leads on in the candidate leads on in what is merged. -/
theorem exists_step? (sits : Sits rules whole call) (drawn : Drawn whole candidate)
    (composes : Composes rules call) {part inner : Value}
    (stands : candidate.at? call.path = some part) (leads : part.step? segment = some inner) :
    ∃ merged, (call.merged rules).result.step? segment = some merged := by
  by_cases meets : ∃ write ∈ (call.merged rules).journal.writes,
      ¬ write.path.Apart (call.path ++ [segment])
  · -- A write behind the step leads to a part of what is merged.
    obtain ⟨write, written, meets⟩ := meets
    obtain ⟨other, rest, route, _⟩ := composes.behind sits.formed written
    have same : other.bare = segment.bare := by
      refine Classical.not_not.1 fun different => meets ?_
      rw [route]
      exact Path.apart_of_bare_ne call.path different rest []
    obtain ⟨after, v, routeAfter, found⟩ := (sits.formed.sound rules).placed write written
    obtain rfl : after = other :: rest := List.append_cancel_left (routeAfter.symm.trans route)
    obtain ⟨merged, first, _⟩ := Option.bind_eq_some_iff.1 found
    exact ⟨merged, by rw [← Value.step?_of_bare_eq same, first]⟩
  · have apart : ∀ write ∈ (call.merged rules).journal.writes,
        write.path.Apart (call.path ++ [segment]) := fun write written =>
      Classical.not_not.1 fun not => meets ⟨write, written, not⟩
    exact ⟨inner, (sits.step?_eq drawn stands apart).symm.trans leads⟩

/-- What the merge of a struct does not take is left, or merged as a list, in the candidate. -/
theorem of_untaken {fields given entries : Fields} {path : Path}
    (sits : Sits rules whole ⟨.object fields, path, .object given⟩) (drawn : Drawn whole candidate)
    (filled : fields ≠ []) (notMap : isMapAt rules.maps path = false)
    (stands : candidate.at? path = some (.object entries)) {name : String}
    (untaken : Keyed.get? name (takenFields rules path given) = none) :
    Keyed.get? name entries = (Keyed.get? name fields).map (leftField fields given name) := by
  have distinct := sits.formed.given.distinct
  rw [← get?_mergeObjects_of_untaken distinct untaken]
  have same : (Value.object entries).step? (.field name) = _ :=
    sits.step?_eq drawn stands fun write written => ?_
  · rw [merged_struct filled notMap] at same
    exact same
  · -- Every write is behind the name of a field that is taken.
    have fresh : ∀ other v, (other, v) ∈ takenFields rules path given → other ≠ name := by
      rintro other v taken rfl
      exact Keyed.get?_eq_none_iff.1 untaken (List.mem_map.2 ⟨_, taken, rfl⟩)
    have struct : Composes rules ⟨.object fields, path, .object given⟩ := .struct filled notMap
    rcases (struct.mem_writes sits.formed).1 written with ⟨segment, next, makes, written⟩ | adds
    · obtain ⟨rest, _, route, _⟩ := ((makes.formed sits.formed).sound rules).placed write written
      rw [route, makes.path_eq, List.append_assoc, List.singleton_append]
      refine Path.apart_of_bare_ne path ?_ rest []
      cases makes with
      | field _ taken _ => exact fun same => fresh _ _ taken (Segment.field.inj same)
      | entry isMap _ => simp [isMap] at notMap
    · cases adds with
      | field _ _ taken _ =>
        refine Path.apart_of_bare_ne path ?_ [] []
        exact fun same => fresh _ _ taken (Segment.field.inj same)

end Sits

end MergeCall

/-- A merge of structs, the first of which has fields, is a call at the root. -/
theorem Transfer.sits_merge {δ : Type} (exclusions : Exclusions) (codec : Codec δ)
    {fields given : Fields} (formedThere : (Value.object fields).WellFormed)
    (formed : (Value.object given).WellFormed) (filled : fields ≠ []) :
    MergeCall.Sits ⟨exclusions, mapPaths codec.roundTrip fields⟩
      ((merge exclusions codec fields given).map .object)
      ⟨.object fields, Path.root, .object given⟩ := by
  have same : MergeCall.merged ⟨exclusions, mapPaths codec.roundTrip fields⟩
      ⟨.object fields, Path.root, .object given⟩ =
        (merge exclusions codec fields given).map .object :=
    MergeCall.merged_struct filled rfl
  refine ⟨⟨formedThere, formed⟩, ?_, ?_, ?_⟩
  · rw [same]
    rfl
  · rw [same]
    exact List.Subset.refl _
  · rw [same]
    exact fun write written => .inl written

end Triversion
