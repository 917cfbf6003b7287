import Triversion.Proofs.Compute.Addresses
import Triversion.Proofs.Transfer.Candidate
import Triversion.Proofs.Transfer.Forgotten

/-!
A copy loses no scalar silently.

A scalar of the source is merged below a write or lost there and then. The write settles or is
lost, and what the destination type does with a settled one shows when it is written again.
-/

namespace Triversion

namespace Value.HasScalar

variable {v part scalar : Value} {initial later : List String}

/-- A scalar behind a part is a scalar of the whole. -/
theorem append_iff (leads : v.under? initial = some part) :
    v.HasScalar (initial ++ later) scalar ↔ part.HasScalar later scalar := by
  -- A route leads first to the part, and then to the scalar in it.
  constructor
  · intro has
    obtain ⟨isScalar, filled, found⟩ := has
    rw [under?_append, leads] at found
    exact ⟨isScalar, filled, found⟩
  · intro has
    obtain ⟨isScalar, filled, found⟩ := has
    exact ⟨isScalar, filled, by rw [under?_append, leads]; exact found⟩

end Value.HasScalar

/-- A part that is lost as a whole takes every scalar in it along. -/
theorem exists_loss {losses : List Loss} {route : Path} {v scalar : Value}
    {names later : List String} (lost : lossOf route v ⊆ losses) (has : v.HasScalar later scalar)
    (reaches : Path.root.Reaches route names) :
    ∃ loss ∈ losses, Path.root.Reaches loss.path names := by
  refine ⟨⟨route, v⟩, lost ?_, reaches⟩
  simp [lossOf, has.not_blank]

/-- A scalar below a write that has settled is still there, or lost. -/
theorem Write.Settled.keeps_scalar {merged candidate scalar : Value} {losses : List Loss}
    {write : Write} {names : List String} (settled : write.Settled merged candidate losses)
    (reaches : Path.root.Reaches write.path names) (has : merged.HasScalar names scalar) :
    candidate.HasScalar names scalar ∨
      ∃ loss ∈ losses, Path.root.Reaches loss.path names := by
  have leads := reaches
  obtain ⟨route, initial, rooted, spells, later, rfl⟩ := leads
  obtain ⟨v, found, cases⟩ := settled
  rw [Path.root, List.nil_append] at rooted
  -- The route of the write spells a beginning of the names, so the scalar is inside the part.
  rw [rooted, spells.at?_eq] at found
  have inside := (Value.HasScalar.append_iff found).1 has
  rcases cases with same | lost | ⟨items, rfl⟩ | ⟨entries, kept, rfl, same, each⟩
  · rw [rooted, spells.at?_eq] at same
    exact .inl ((Value.HasScalar.append_iff same).2 inside)
  · exact .inr (exists_loss lost inside reaches)
  · exact absurd inside Value.HasScalar.not_array
  · -- The scalar stands in one of the entries, each of which is kept or lost.
    rw [rooted, spells.at?_eq] at same
    obtain ⟨k, rest, part, rfl, first, within⟩ := inside.of_object
    rcases each _ (Keyed.mem_of_get? first) with stays | lost
    · refine .inl ((Value.HasScalar.append_iff same).2 ?_)
      exact Value.HasScalar.object_iff.2 ⟨part, stays, within⟩
    · refine .inr (exists_loss lost within ⟨route ++ [.key k], initial ++ [k], ?_, ?_, ?_⟩)
      · simp [rooted, Path.root, Path.key]
      · rw [Path.Spells, List.map_append, spells, List.map_append]
        rfl
      · exact ⟨rest, by simp⟩

namespace Transfer

variable {σ δ : Type}

/-- A scalar of the source is in the candidate that is rebuilt, or lost on the way to it. -/
theorem candidate_keeps_scalar {codec : Codec δ} {fields given : Fields} {whole scalar : Value}
    {lost : List Loss} {new : δ} {names : List String}
    (formedThere : (Value.object fields).WellFormed) (formed : (Value.object given).WellFormed)
    (chosen : candidate .none codec fields given = (whole, lost))
    (rebuilt : codec.decode whole = some new)
    (ordinary : ∀ name ∈ names, isBookkeeping name = false)
    (has : (Value.object given).HasScalar names scalar) :
    whole.HasScalar names scalar ∨ ∃ loss ∈ lost, Path.root.Reaches loss.path names := by
  obtain ⟨more, rfl, _, settled⟩ := candidate_settled formedThere formed chosen rebuilt
  obtain ⟨name, rest, part, rfl, found, inside⟩ := has.of_object
  obtain ⟨ordinaryName, ordinary⟩ := List.forall_mem_cons.1 ordinary
  have accounts : ((merge .none codec fields given).map Value.object).Accounts Path.root
      (name :: rest) scalar :=
    accounts_mergeObjects formed ordinaryName found inside fun there _ =>
      accounts_mergeInto (formed.of_get? found) _ ordinary inside
  rcases accounts with ⟨loss, listed, reaches⟩ | ⟨merged, write, listed, reaches⟩
  · exact .inr ⟨loss, List.mem_append_left _ listed, reaches⟩
  · -- The scalar was merged below a write, which has settled in one way or another.
    rcases (settled write listed).keeps_scalar reaches merged with stays | ⟨loss, later, reaches⟩
    · exact .inl stays
    · exact .inr ⟨loss, List.mem_append_right _ later, reaches⟩

end Transfer

/-- A route that reaches names from the root spells a beginning of them. -/
theorem Path.Reaches.spells_prefix {route : Path} {names : List String}
    (reaches : Path.root.Reaches route names) :
    route.map Segment.name? <+: names.map some := by
  -- Behind the root the whole route is what goes on.
  obtain ⟨rest, initial, rooted, spells, later, rfl⟩ := reaches
  obtain rfl : route = rest := rooted
  refine ⟨later.map some, ?_⟩
  rw [spells, List.map_append]

/--
A copy loses no scalar silently.

If the destination type keeps scalars, every scalar of the source that carries information is found
in the new destination, or a loss is reported on the way to it.
-/
theorem copy_loses_no_scalar_silently {σ δ : Type} {source : Codec σ} {codec : Codec δ}
    (sourceForms : source.WritesWellFormed) (destForms : codec.WritesWellFormed)
    (keeps : codec.KeepsScalars) {src : σ} {dest new : δ} {losses : List Loss}
    (copied : Transfer.copy .none source codec src dest = ⟨.ok new, losses⟩) {given : Value}
    (written : source.encode src = .ok given) :
    ∃ settled, codec.encode new = .ok settled ∧
      ∀ names scalar, (∀ name ∈ names, isBookkeeping name = false) →
        given.HasScalar names scalar →
        settled.Finds names scalar ∨
          ∃ loss ∈ losses, loss.path.map Segment.name? <+: names.map some := by
  obtain ⟨_, fields, whole, lost, settled, maps, encoded, there, chosen, rebuilt, again, rfl⟩ :=
    Transfer.copy_eq_ok copied
  obtain rfl := Except.ok.inj (encoded.symm.trans written)
  have formed := sourceForms _ _ encoded
  have formedThere := destForms _ _ there
  refine ⟨settled, again, fun names scalar ordinary has => ?_⟩
  rcases Transfer.candidate_keeps_scalar formedThere formed chosen rebuilt ordinary has with
    stays | ⟨loss, listed, reaches⟩
  · obtain ⟨_, _, formedWhole, _⟩ :=
      Transfer.candidate_settled formedThere formed chosen rebuilt
    -- The source is an object, so the route is not empty and the candidate is an object too.
    obtain ⟨name, rest, _, rfl, _⟩ := has.of_object
    obtain ⟨none, _⟩ | ⟨wholeFields, _, _, _, rfl, _⟩ := stays.cases
    · simp at none
    have roundTrip : codec.roundTrip (.object wholeFields) = some settled := by
      simp only [Codec.roundTrip, rebuilt, again, Except.toOption]
    rcases keeps wholeFields settled formedWhole roundTrip _ scalar stays with found | lacks
    · exact .inl found
    · -- What the destination type forgets is looked for in the candidate and reported.
      obtain ⟨loss, listed, reaches⟩ := forgotten_of_lacks maps Path.root ordinary stays lacks
      exact .inr ⟨loss, List.mem_append_right _ listed, reaches.spells_prefix⟩
  · exact .inr ⟨loss, List.mem_append_left _ listed, reaches.spells_prefix⟩

/-- An alpha address with a feature of its own is copied over a stable one. -/
theorem copy_loses_no_scalar_silently_of_feature :
    ∃ new losses settled,
      Transfer.copy .none AlphaAddress.codec Address.codec
        { AlphaAddress.initial with name := "web", featureFlag := true } .initial =
        ⟨.ok new, losses⟩ ∧
      Address.codec.encode new = .ok settled ∧
      (settled.Finds ["FeatureFlag"] (.bool true) ∨
        ∃ loss ∈ losses, loss.path.map Segment.name? <+: ["FeatureFlag"].map some) := by
  have sourceForms := (AlphaAddress.lawful.isRecord "AlphaAddress").writesWellFormed
  have destForms := (Address.lawful.isRecord "Address").writesWellFormed
  have keeps := Address.lawful.keepsScalars "Address"
  have copied : Transfer.copy .none AlphaAddress.codec Address.codec
      { AlphaAddress.initial with name := "web", featureFlag := true } .initial =
      ⟨.ok { Address.initial with name := "web" }, [⟨[.field "FeatureFlag"], .bool true⟩]⟩ := by
    rfl
  obtain ⟨settled, again, each⟩ :=
    copy_loses_no_scalar_silently sourceForms destForms keeps copied rfl
  refine ⟨_, _, settled, copied, again, ?_⟩
  exact each ["FeatureFlag"] (.bool true) (by decide) ⟨rfl, rfl, rfl⟩

end Triversion
