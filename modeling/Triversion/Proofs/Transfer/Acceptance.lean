import Triversion.Catalog
import Triversion.Proofs.Transfer.Candidate

/-!
When a copy goes through.

Halving never leaves what the destination type accepts. So a copy fails exactly if the type refuses
the merged candidate and refuses it without its writes as well.
-/

namespace Triversion

section Redo

variable {accepts : Value → Bool} {merged candidate : Value} {path : Path}

/-- Items that are tried one by one leave an acceptable candidate acceptable. -/
theorem accepts_salvageItems (acceptable : accepts candidate = true) (i : Nat)
    (items : List Value) : accepts (salvageItems accepts path i candidate items).1 = true := by
  -- An item stays only if the candidate with it is accepted.
  induction items generalizing i candidate with
  | nil => exact acceptable
  | cons item rest ih =>
    rw [salvageItems]
    split
    · next kept => exact ih kept _
    · exact ih acceptable _

/-- An entry that is put into a map without its key and removed again leaves no trace. -/
theorem modifyAt_erase_set {k : String} (v : Value)
    (fresh : ∀ kept, candidate.at? path = some (.object kept) → k ∉ kept.map (·.1)) :
    (candidate.modifyAt path (Value.setStep (.key k) v)).modifyAt path
      (Value.eraseStep (.key k)) = candidate := by
  rw [Value.modifyAt_modifyAt]
  refine Value.modifyAt_eq_self fun part found => ?_
  -- Only an object takes an entry at all.
  cases part with
  | object kept => exact congrArg Value.object (Keyed.erase_put_of_fresh v (fresh kept found))
  | _ => rfl

/-- Entries that are tried one by one leave an acceptable candidate acceptable. -/
theorem accepts_salvageEntries (acceptable : accepts candidate = true) {entries : Fields}
    (distinct : (entries.map (·.1)).Nodup)
    (fresh : ∀ kept, candidate.at? path = some (.object kept) →
      ∀ entry ∈ entries, entry.1 ∉ kept.map (·.1)) :
    accepts (salvageEntries accepts path candidate entries).1 = true := by
  induction entries generalizing candidate with
  | nil => exact acceptable
  | cons entry rest ih =>
    obtain ⟨k, v⟩ := entry
    obtain ⟨absent, distinct⟩ := List.nodup_cons.1 distinct
    rw [salvageEntries]
    split
    · -- The keys that follow are new to the map with the entry in it too.
      next kept =>
      refine ih kept distinct fun left found entry member inside => ?_
      rw [Value.at?_modifyAt] at found
      obtain ⟨part, here, changed⟩ := Option.map_eq_some_iff.1 found
      cases part with
      | object before =>
        obtain rfl := Value.object.inj changed
        obtain ⟨stored, listed, same⟩ := List.mem_map.1 inside
        rcases Keyed.mem_put listed with rfl | old
        · exact absent (List.mem_map.2 ⟨entry, member, same.symm⟩)
        · exact fresh before here entry (List.mem_cons_of_mem _ member)
            (List.mem_map.2 ⟨stored, old, same⟩)
      | _ => simp [Value.setStep] at changed
    · -- A refused entry is removed, which gives back the candidate before it was tried.
      rw [modifyAt_erase_set v fun kept here => fresh kept here _ List.mem_cons_self]
      exact ih acceptable distinct fun kept here entry member =>
        fresh kept here entry (List.mem_cons_of_mem _ member)

/-- A single refused write leaves an acceptable candidate acceptable. -/
theorem accepts_salvageWrite (formedMerged : merged.WellFormed) {write : Write}
    (ready : write.Ready merged candidate) (acceptable : accepts candidate = true) :
    accepts (salvageWrite accepts merged write candidate).1 = true := by
  obtain ⟨⟨v, found⟩, _, emptied⟩ := ready
  simp only [salvageWrite, found]
  split
  · exact accepts_salvageItems acceptable 0 _
  · next entries isMap =>
    refine accepts_salvageEntries acceptable (formedMerged.at? found).distinct ?_
    -- The map was emptied when the write was taken back.
    intro kept here
    obtain rfl := Value.object.inj (Option.some.inj ((emptied isMap).symm.trans here))
    simp
  · exact acceptable

/-- Making writes again in halves leaves an acceptable candidate acceptable. -/
theorem accepts_redo (formedMerged : merged.WellFormed) {writes : List Write}
    (apart : Write.AllApart writes) (ready : ∀ write ∈ writes, write.Ready merged candidate)
    (formed : candidate.WellFormed) (acceptable : accepts candidate = true) :
    accepts (redo accepts merged writes candidate).1 = true := by
  refine (redo_induction accepts formedMerged
    (motive := fun _ before after _ => accepts before = true → accepts after = true)
    ?_ ?_ ?_ apart ready formed).2 acceptable
  · intro writes before _ _ made kept
    rcases made with rfl | made
    · exact kept
    · exact made
  · exact fun write before readyWrite _ => accepts_salvageWrite formedMerged readyWrite
  · -- Each half starts from an acceptable candidate.
    exact fun _ _ _ _ _ _ _ _ _ _ left right kept => right (left kept)

end Redo

namespace Transfer

variable {σ δ : Type}

section Candidate

variable {exclusions : Exclusions} {codec : Codec δ} {fields given : Fields}

/-- A refused candidate is made acceptable if there is an acceptable one without any write. -/
theorem accepts_candidate (formedThere : (Value.object fields).WellFormed)
    (formed : (Value.object given).WellFormed)
    (refused : codec.decode (.object (merge exclusions codec fields given).result) = none)
    (acceptable : accepts codec (bare exclusions codec fields given) = true) :
    accepts codec (candidate exclusions codec fields given).1 = true := by
  have sound := sound_merge exclusions codec formedThere formed
  rw [candidate_of_refused (by rw [refused]; rfl) acceptable]
  exact accepts_redo sound.wellFormed sound.apart (ready_bare formedThere formed)
    (wellFormed_bare formedThere formed) acceptable

/-- The object that a copy chooses can be rebuilt exactly if one of two others fits. -/
theorem decode_candidate_isSome_iff (formedThere : (Value.object fields).WellFormed)
    (formed : (Value.object given).WellFormed) :
    (codec.decode (candidate exclusions codec fields given).1).isSome = true ↔
      (codec.decode (.object (merge exclusions codec fields given).result)).isSome = true ∨
        accepts codec (bare exclusions codec fields given) = true := by
  cases rebuilt : codec.decode (.object (merge exclusions codec fields given).result) with
  | some new => simp [candidate, rebuilt]
  | none =>
    cases acceptable : accepts codec (bare exclusions codec fields given) with
    | true =>
      obtain ⟨again, trip⟩ :=
        Option.isSome_iff_exists.1 (accepts_candidate formedThere formed rebuilt acceptable)
      obtain ⟨new, decoded, _⟩ := roundTrip_eq_some.1 trip
      simp [decoded]
    | false =>
      -- Refused without its writes too, the merged candidate is chosen as it is.
      unfold bare at acceptable
      simp [candidate, salvage, acceptable, rebuilt]

end Candidate

/-- A copy ends with what is rebuilt from the object that it chooses. -/
theorem copyFields_result (exclusions : Exclusions) {codec : Codec δ}
    (writable : ∀ v x, codec.decode v = some x → ∃ w, codec.encode x = .ok w)
    (fields given : Fields) :
    (copyFields exclusions codec fields given).result =
      codec.rebuild (candidate exclusions codec fields given).1 := by
  unfold copyFields
  generalize candidate exclusions codec fields given = chosen
  obtain ⟨whole, losses⟩ := chosen
  cases rebuilt : codec.decode whole with
  | none => simp only [Codec.rebuild, rebuilt]
  | some new =>
    obtain ⟨settled, written⟩ := writable _ _ rebuilt
    simp only [Codec.rebuild, Codec.write, rebuilt, written]

/-- If all that is rebuilt can be written, one of two others need only be rebuilt. -/
theorem decode_candidate_isSome {exclusions : Exclusions} {codec : Codec δ}
    (writable : ∀ v x, codec.decode v = some x → ∃ w, codec.encode x = .ok w)
    {fields given : Fields} (formedThere : (Value.object fields).WellFormed)
    (formed : (Value.object given).WellFormed) :
    (codec.decode (candidate exclusions codec fields given).1).isSome = true ↔
      (codec.decode (.object (merge exclusions codec fields given).result)).isSome = true ∨
        (codec.decode (bare exclusions codec fields given)).isSome = true := by
  rw [decode_candidate_isSome_iff formedThere formed, accepts_iff writable]

/--
A copy goes through exactly if the destination type accepts the merged candidate, or accepts it
with all writes taken back; if it does not go through, the destination could not be rebuilt.
-/
theorem copy_goes_through_iff {exclusions : Exclusions} {source : Codec σ} {codec : Codec δ}
    (writable : ∀ v x, codec.decode v = some x → ∃ w, codec.encode x = .ok w)
    {src : σ} {dest : δ} {given fields : Fields}
    (written : source.encode src = .ok (.object given))
    (there : codec.encode dest = .ok (.object fields))
    (formed : (Value.object given).WellFormed) (formedThere : (Value.object fields).WellFormed) :
    ((∃ new losses, copy exclusions source codec src dest = ⟨.ok new, losses⟩) ↔
      (codec.decode (.object (merge exclusions codec fields given).result)).isSome = true ∨
        (codec.decode (bare exclusions codec fields given)).isSome = true) ∧
      ∀ fault losses, copy exclusions source codec src dest = ⟨.error fault, losses⟩ →
        fault = .notRebuilt codec.name := by
  have copied :
      copy exclusions source codec src dest = copyFields exclusions codec fields given := by
    simp only [copy, Codec.write, written, there]
  have ends := copyFields_result exclusions writable fields given
  rw [copied, ← decode_candidate_isSome writable formedThere formed]
  generalize copyFields exclusions codec fields given = outcome at ends ⊢
  obtain ⟨result, losses⟩ := outcome
  simp only at ends
  subst ends
  -- Rebuilding the chosen object is the only step that can fail.
  cases rebuilt : codec.decode (candidate exclusions codec fields given).1 with
  | none =>
    constructor
    · simp [Codec.rebuild, rebuilt]
    · intro fault losses same
      simpa [Codec.rebuild, rebuilt] using (congrArg Outcome.result same).symm
  | some new =>
    constructor
    · simp [Codec.rebuild, rebuilt]
    · intro fault losses same
      simp [Codec.rebuild, rebuilt] at same

/-- A text among port numbers is refused with them, and the copy goes through without it. -/
theorem copy_goes_through_of_ports :
    ∃ new losses, copy .none (Shape.any.codec "Value") (Catalog.plain.codec "Plain")
      (.object [("Ports", .array [.whole 80, .string "http", .whole 443])])
      Catalog.plain.initial = ⟨.ok new, losses⟩ := by
  let given : Fields := [("Ports", .array [.whole 80, .string "http", .whole 443])]
  let fields : Fields := [("Count", .null), ("Mode", .string ""), ("Ports", .array []),
    ("Rules", .object []), ("Size", .whole 0)]
  have formed : (Value.object given).WellFormed :=
    ⟨by decide, ⟨trivial, trivial, trivial, trivial⟩, trivial⟩
  have formedThere : (Value.object fields).WellFormed :=
    ⟨by decide, trivial, trivial, trivial, ⟨by decide, trivial⟩, trivial, trivial⟩
  have acceptable :
      ((Catalog.plain.codec "Plain").decode
        (bare .none (Catalog.plain.codec "Plain") fields given)).isSome = true := by rfl
  exact (copy_goes_through_iff (fun _ x _ => ⟨x, rfl⟩) rfl rfl formed formedThere).1.2
    (.inr acceptable)

/--
Not every copy of a struct over a struct goes through.

A number is no word of a choice, and the empty text that the choice is reset to is none either.
-/
theorem not_every_copy_goes_through :
    ¬ ∀ (σ δ : Type) (exclusions : Exclusions) (source : Codec σ) (codec : Codec δ) (src : σ)
        (dest : δ) (given fields : Fields),
      source.encode src = .ok (.object given) → codec.encode dest = .ok (.object fields) →
      (Value.object given).WellFormed → (Value.object fields).WellFormed →
      (codec.decode (.object fields)).isSome = true →
      (∀ v x, codec.decode v = some x → ∃ w, codec.encode x = .ok w) →
      ∃ new losses, copy exclusions source codec src dest = ⟨.ok new, losses⟩ := by
  intro always
  let fields : Fields := [("Alt", .null), ("ByName", .object []), ("List", .array []),
    ("Mode", .string "Fast"), ("Name", .string "")]
  have formedThere : (Value.object fields).WellFormed :=
    ⟨by decide, trivial, ⟨by decide, trivial⟩, trivial, trivial, trivial, trivial⟩
  have failed : (copy .none (Shape.any.codec "Value") (Catalog.modes.codec "Modes")
      (.object [("Mode", .whole 5)]) (.object fields)).result =
      .error (.notRebuilt "Modes") := by rfl
  obtain ⟨new, losses, copied⟩ := always Value Value .none (Shape.any.codec "Value")
    (Catalog.modes.codec "Modes") (.object [("Mode", .whole 5)]) (.object fields) _ fields rfl rfl
    ⟨by decide, trivial, trivial⟩ formedThere rfl fun _ x _ => ⟨x, rfl⟩
  rw [copied] at failed
  simp at failed

/-- The fields of a copy that is written on both sides are all that it goes by. -/
theorem copy_of_written {exclusions : Exclusions} {source : Codec σ} {codec : Codec δ} {src : σ}
    {dest : δ} {given fields : Fields} (written : source.encode src = .ok (.object given))
    (there : codec.encode dest = .ok (.object fields)) :
    copy exclusions source codec src dest = copyFields exclusions codec fields given := by
  simp only [copy, Codec.write, written, there]

/-- A copy cannot rebuild its destination exactly if the object that it chooses is refused. -/
theorem copyFields_notRebuilt_iff (exclusions : Exclusions) (codec : Codec δ)
    (fields given : Fields) :
    (∃ type, (copyFields exclusions codec fields given).result = .error (.notRebuilt type)) ↔
      codec.decode (candidate exclusions codec fields given).1 = none := by
  unfold copyFields
  generalize candidate exclusions codec fields given = chosen
  obtain ⟨whole, losses⟩ := chosen
  cases rebuilt : codec.decode whole with
  | none => simp [Codec.rebuild, rebuilt]
  | some new =>
    -- What was rebuilt and cannot be written is a failure of another kind.
    cases written : codec.encode new <;> simp [Codec.rebuild, Codec.write, rebuilt, written]

/-- A copy whose chosen object is accepted ends with what is rebuilt from that object. -/
theorem copyFields_of_accepted {exclusions : Exclusions} {codec : Codec δ} {fields given : Fields}
    {new : δ} {again : Value}
    (rebuilt : codec.decode (candidate exclusions codec fields given).1 = some new)
    (written : codec.encode new = .ok again) :
    (copyFields exclusions codec fields given).result = .ok new := by
  unfold copyFields
  generalize candidate exclusions codec fields given = chosen at rebuilt ⊢
  obtain ⟨whole, losses⟩ := chosen
  simp only [Codec.rebuild, Codec.write, rebuilt, written]

/--
A copy fails to rebuild its destination exactly if the destination type refuses the merged
candidate and does not accept it with all writes taken back either.

Whenever the merged candidate is refused otherwise, the object that is chosen in its place can be
rebuilt and written again, however the acceptance of one write depends on the others.
-/
theorem copy_ends_acceptable {exclusions : Exclusions} {source : Codec σ} {codec : Codec δ}
    {src : σ} {dest : δ} {given fields : Fields}
    (written : source.encode src = .ok (.object given))
    (there : codec.encode dest = .ok (.object fields))
    (formed : (Value.object given).WellFormed) (formedThere : (Value.object fields).WellFormed) :
    ((∃ type, (copy exclusions source codec src dest).result = .error (.notRebuilt type)) ↔
      codec.decode (.object (merge exclusions codec fields given).result) = none ∧
        codec.roundTrip (bare exclusions codec fields given) = none) ∧
    (codec.decode (.object (merge exclusions codec fields given).result) = none →
      codec.roundTrip (bare exclusions codec fields given) ≠ none →
      ∃ new again, codec.decode (candidate exclusions codec fields given).1 = some new ∧
        codec.encode new = .ok again ∧
        (copy exclusions source codec src dest).result = .ok new) := by
  rw [copy_of_written written there, copyFields_notRebuilt_iff]
  constructor
  · have chosen := @decode_candidate_isSome_iff _ exclusions codec _ _ formedThere formed
    rw [← Option.not_isSome_iff_eq_none, chosen, not_or, Option.not_isSome_iff_eq_none, accepts,
      Option.not_isSome_iff_eq_none]
  · intro refused acceptable
    -- Halving starts from the bare candidate, which is accepted, and never leaves what is.
    have accepted := accepts_candidate formedThere formed refused
      (Option.isSome_iff_ne_none.2 acceptable)
    obtain ⟨again, trip⟩ := Option.isSome_iff_exists.1 accepted
    obtain ⟨new, rebuilt, writtenNew⟩ := roundTrip_eq_some.1 trip
    exact ⟨new, again, rebuilt, writtenNew, copyFields_of_accepted rebuilt writtenNew⟩

/-- Two texts of which one at most may carry information. -/
def eitherText : Codec Value where
  name := "Either"
  initial := .object [("A", .string ""), ("B", .string "")]
  encode v := .ok v
  decode v :=
    if (v.at? (Path.root.field "A")).all Value.isBlank ||
        (v.at? (Path.root.field "B")).all Value.isBlank then some v
    else none

/-- Two texts that exclude each other are refused together, and one of them is kept. -/
theorem copy_ends_acceptable_of_either :
    ∃ new again,
      eitherText.decode (candidate .none eitherText [("A", .string ""), ("B", .string "")]
        [("A", .string "x"), ("B", .string "y")]).1 = some new ∧
      eitherText.encode new = .ok again ∧
      (copy .none (Shape.any.codec "Value") eitherText
        (.object [("A", .string "x"), ("B", .string "y")]) eitherText.initial).result =
          .ok new := by
  have formed : (Value.object [("A", .string "x"), ("B", .string "y")]).WellFormed :=
    ⟨by decide, trivial, trivial, trivial⟩
  have formedThere : (Value.object [("A", .string ""), ("B", .string "")]).WellFormed :=
    ⟨by decide, trivial, trivial, trivial⟩
  exact (copy_ends_acceptable rfl rfl formed formedThere).2 rfl
    (Option.isSome_iff_ne_none.1 (by rfl))

end Transfer

end Triversion
