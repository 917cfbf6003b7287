import Triversion.Proofs.Transfer.Salvage
import Triversion.Transfer.Copy

/-!
The object that a copy rebuilds the destination from.

It is the merged candidate, or what halving makes of the candidate once all writes are taken back.
-/

namespace Triversion.Transfer

variable {σ δ : Type}

/-- What is written without failing is what the codec encodes. -/
theorem encode_of_write {α : Type} {codec : Codec α} {x : α} {v : Value}
    (written : codec.write x = .ok v) : codec.encode x = .ok v := by
  unfold Codec.write at written
  split at written
  · next same => rw [same, Except.ok.inj written]
  · contradiction

/-- What is rebuilt without failing is what the codec decodes. -/
theorem decode_of_rebuild {α : Type} {codec : Codec α} {x : α} {v : Value}
    (rebuilt : codec.rebuild v = .ok x) : codec.decode v = some x := by
  unfold Codec.rebuild at rebuilt
  split at rebuilt
  · next same => rw [same, Except.ok.inj rebuilt]
  · contradiction

/-- What is written again was rebuilt, and written. -/
theorem roundTrip_eq_some {codec : Codec δ} {v w : Value} :
    codec.roundTrip v = some w ↔ ∃ x, codec.decode v = some x ∧ codec.encode x = .ok w := by
  unfold Codec.roundTrip
  cases codec.decode v with
  | none => simp
  | some x =>
    simp only [Option.some.injEq, exists_eq_left']
    cases codec.encode x <;> simp [Except.toOption]

/-- If all that is rebuilt can be written, a value is accepted exactly if it can be rebuilt. -/
theorem accepts_iff {codec : Codec δ}
    (writable : ∀ v x, codec.decode v = some x → ∃ w, codec.encode x = .ok w) (v : Value) :
    accepts codec v = (codec.decode v).isSome := by
  -- Of rebuilding and writing again only rebuilding can fail.
  unfold accepts Codec.roundTrip
  split
  · next refused =>
    rw [refused]
    rfl
  · next x rebuilt =>
    obtain ⟨w, written⟩ := writable v x rebuilt
    rw [rebuilt, written]
    rfl

/-- An outcome that yields a value is the success with it. -/
theorem outcome_of_toOption {outcome : Outcome δ} {new : δ}
    (yields : outcome.result.toOption = some new) : outcome = ⟨.ok new, outcome.losses⟩ := by
  obtain ⟨result, losses⟩ := outcome
  cases result with
  | ok other =>
    obtain rfl : other = new := Option.some.inj yields
    rfl
  | error fault => simp [Except.toOption] at yields

/-- A copy that succeeds has rebuilt a candidate, and reports what went before and what is gone. -/
theorem copy_eq_ok {exclusions : Exclusions} {source : Codec σ} {codec : Codec δ} {src : σ}
    {dest new : δ} {losses : List Loss}
    (copied : copy exclusions source codec src dest = ⟨.ok new, losses⟩) :
    ∃ given fields whole lost settled maps, source.encode src = .ok (.object given) ∧
      codec.encode dest = .ok (.object fields) ∧
      candidate exclusions codec fields given = (whole, lost) ∧
      codec.decode whole = some new ∧ codec.encode new = .ok settled ∧
      losses = lost ++ forgotten maps settled Path.root whole := by
  -- Each step of a copy that could have failed is known to have gone through.
  unfold copy at copied
  split at copied
  · simp at copied
  · next given written =>
    split at copied
    · simp at copied
    · next there writtenThere =>
      split at copied
      · next fields given =>
        unfold copyFields at copied
        split at copied
        next whole lost chosen =>
        split at copied
        · simp at copied
        · next rebuilt decoded =>
          split at copied
          · simp at copied
          · next settled writtenNew =>
            obtain ⟨same, rfl⟩ := Outcome.mk.inj copied
            obtain rfl := Except.ok.inj same
            exact ⟨given, fields, whole, lost, settled, _, encode_of_write written,
              encode_of_write writtenThere, chosen, decode_of_rebuild decoded,
              encode_of_write writtenNew, rfl⟩
      · simp at copied
      · simp at copied

/-- The merged candidate with all its writes taken back: what was untouched, and what was reset. -/
def bare (exclusions : Exclusions) (codec : Codec δ) (fields given : Fields) : Value :=
  let merged := merge exclusions codec fields given
  takeBackAll merged.journal.writes (.object merged.result)

/-- A merge of structs is sound. -/
theorem sound_merge (exclusions : Exclusions) (codec : Codec δ) {fields given : Fields}
    (formedThere : (Value.object fields).WellFormed) (formed : (Value.object given).WellFormed) :
    ((merge exclusions codec fields given).map Value.object).Sound Path.root :=
  sound_mergeStructs _ Path.root formedThere formed

section Candidate

variable {exclusions : Exclusions} {codec : Codec δ} {fields given : Fields}

/-- Every write of a merge leads to a part of the merged candidate. -/
theorem found_merge (formedThere : (Value.object fields).WellFormed)
    (formed : (Value.object given).WellFormed) :
    ∀ write ∈ (merge exclusions codec fields given).journal.writes,
      ∃ v, (Value.object (merge exclusions codec fields given).result).at? write.path = some v :=
  (sound_merge exclusions codec formedThere formed).found

/-- Every write could be made again in the bare candidate. -/
theorem ready_bare (formedThere : (Value.object fields).WellFormed)
    (formed : (Value.object given).WellFormed) :
    ∀ write ∈ (merge exclusions codec fields given).journal.writes,
      write.Ready (.object (merge exclusions codec fields given).result)
        (bare exclusions codec fields given) :=
  ready_takeBackAll (sound_merge exclusions codec formedThere formed).apart
    (found_merge formedThere formed)

theorem wellFormed_bare (formedThere : (Value.object fields).WellFormed)
    (formed : (Value.object given).WellFormed) :
    (bare exclusions codec fields given).WellFormed :=
  have sound := sound_merge exclusions codec formedThere formed
  wellFormed_takeBackAll sound.wellFormed sound.restores

/-- From the bare candidate on, halving lets all writes settle. -/
theorem redone_bare {whole : Value} {more : List Loss}
    (formedThere : (Value.object fields).WellFormed) (formed : (Value.object given).WellFormed)
    (redone : redo (accepts codec) (.object (merge exclusions codec fields given).result)
      (merge exclusions codec fields given).journal.writes (bare exclusions codec fields given) =
        (whole, more)) :
    Redone (.object (merge exclusions codec fields given).result)
      (bare exclusions codec fields given) (merge exclusions codec fields given).journal.writes
      whole more := by
  have sound := sound_merge exclusions codec formedThere formed
  have settles := redone_redo (accepts codec) sound.wellFormed sound.apart
    (ready_bare formedThere formed) (wellFormed_bare formedThere formed)
  simpa only [Merged.map, redone] using settles

/-- A candidate that is rebuilt was rebuilt at once, or is made of the bare one by halving. -/
theorem candidate_cases {whole : Value} {lost : List Loss} {new : δ}
    (chosen : candidate exclusions codec fields given = (whole, lost))
    (rebuilt : codec.decode whole = some new) :
    (whole = .object (merge exclusions codec fields given).result ∧
        lost = (merge exclusions codec fields given).journal.losses) ∨
      ∃ more, redo (accepts codec) (.object (merge exclusions codec fields given).result)
          (merge exclusions codec fields given).journal.writes
          (bare exclusions codec fields given) = (whole, more) ∧
        lost = (merge exclusions codec fields given).journal.losses ++ more := by
  unfold candidate at chosen
  unfold bare
  generalize merge exclusions codec fields given = merged at chosen ⊢
  simp only at chosen ⊢
  split at chosen
  · -- Accepted as merged.
    obtain ⟨rfl, rfl⟩ := Prod.mk.inj chosen
    exact .inl ⟨rfl, rfl⟩
  · next refused =>
    obtain ⟨rfl, rfl⟩ := Prod.mk.inj chosen
    unfold salvage at rebuilt ⊢
    simp only at rebuilt ⊢
    split at rebuilt
    · next acceptable =>
      rw [if_pos acceptable]
      exact .inr ⟨_, rfl, rfl⟩
    · -- Otherwise the refused candidate itself would have been rebuilt.
      simp [rebuilt] at refused

/-- A refused candidate is taken apart if the bare one is accepted. -/
theorem candidate_of_refused
    (refused : (codec.decode (.object (merge exclusions codec fields given).result)).isSome = false)
    (acceptable : accepts codec (bare exclusions codec fields given) = true) :
    candidate exclusions codec fields given =
      ((redo (accepts codec) (.object (merge exclusions codec fields given).result)
          (merge exclusions codec fields given).journal.writes
          (bare exclusions codec fields given)).1,
        (merge exclusions codec fields given).journal.losses ++
          (redo (accepts codec) (.object (merge exclusions codec fields given).result)
            (merge exclusions codec fields given).journal.writes
            (bare exclusions codec fields given)).2) := by
  unfold candidate
  unfold bare at acceptable ⊢
  simp only at acceptable ⊢
  rw [refused, if_neg Bool.false_ne_true, salvage]
  simp only [acceptable, if_true]

/-- The candidate that is rebuilt holds every write of the merge as far as it has settled. -/
theorem candidate_settled {whole : Value} {lost : List Loss} {new : δ}
    (formedThere : (Value.object fields).WellFormed) (formed : (Value.object given).WellFormed)
    (chosen : candidate exclusions codec fields given = (whole, lost))
    (rebuilt : codec.decode whole = some new) :
    ∃ more, lost = (merge exclusions codec fields given).journal.losses ++ more ∧
      whole.WellFormed ∧
      ∀ write ∈ (merge exclusions codec fields given).journal.writes,
        write.Settled (.object (merge exclusions codec fields given).result) whole more := by
  have sound := sound_merge exclusions codec formedThere formed
  rcases candidate_cases chosen rebuilt with ⟨rfl, rfl⟩ | ⟨more, redone, rfl⟩
  · -- What is merged is rebuilt at once, so every write stands as it was made.
    refine ⟨[], (List.append_nil _).symm, sound.wellFormed, fun write member => ?_⟩
    obtain ⟨v, leads⟩ := found_merge formedThere formed write member
    exact ⟨v, leads, .inl leads⟩
  · -- Taken back, the writes can all be made again, so halving lets them settle.
    have settles := redone_bare formedThere formed redone
    exact ⟨more, rfl, settles.wellFormed, settles.settled⟩

end Candidate

end Triversion.Transfer
