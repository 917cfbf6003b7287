import Triversion.Catalog
import Triversion.Proofs.Resource.Coherence

/-!
Propagating an unchanged version again.

In a coherent resource whose slots are all empty the versions hold the same in the fields they
share and nothing in those they do not, so no copy between them changes anything.
-/

namespace Triversion

open Shape

/-- Of names that are kept none is left out by a list that knows them all. -/
theorem keptNames_of_known {known others : List String} {listed : List Value}
    (inside : ∀ name, .string name ∈ keptNames known listed → name ∈ others) :
    keptNames known (keptNames others listed) = keptNames known listed := by
  rw [keptNames, keptNames, List.filter_filter]
  refine List.filter_congr fun item member => ?_
  -- What passes the first list passes the second one too.
  cases item with
  | string name =>
    have passes : (known.contains name && !isBookkeeping name) = true →
        (others.contains name && !isBookkeeping name) = true := by
      intro passes
      have kept : Value.string name ∈ keptNames known listed := List.mem_filter.2 ⟨member, passes⟩
      simp [inside name kept, (Bool.and_eq_true_iff.1 passes).2]
    exact Bool.and_eq_left_iff_imp.2 passes
  | _ => rfl

/-- Two versions that hold a name as a third one has left it hold it as if copied to each other. -/
theorem Carries.between {known others : List String} {name : String} {held v : Value}
    {there : Option Value} (here : Carries others name (some held) (some v))
    (beside : Carries known name (some held) there)
    (isList : isBookkeeping name = true → ∃ texts, held = .strings texts)
    (inside : ∀ texts, isBookkeeping name = true → there = some (.array texts) →
      ∀ text, .string text ∈ texts → text ∈ others) :
    Carries known name (some v) there := by
  cases list : isBookkeeping name with
  | false =>
    obtain rfl := here.eq list
    exact beside
  | true =>
    cases there with
    | none => exact .inl list
    | some old =>
      -- Both lists are what is left of the same list.
      obtain ⟨texts, rfl⟩ := isList list
      have left := here.merged list
      have leftBeside := beside.merged list
      simp only [mergedList, Value.strings] at left leftBeside
      rw [Carries, list, if_pos rfl, ← left, ← leftBeside]
      -- The names of the one list are among those that the other version knows.
      refine congrArg Value.array (keptNames_of_known fun text kept => ?_)
      exact inside _ list (congrArg some leftBeside.symm) text kept

namespace Resource

variable {R : Version → Type} {codec : (version : Version) → Codec (R version)}
  {rule : Version → RecordRule} {declared : Version → List (FieldRule × Shape)}

/-- The bookkeeping lists of the other versions name only fields that a version has. -/
def ListsKnown (codec : (version : Version) → Codec (R version))
    (declared : Version → List (FieldRule × Shape)) (resource : Resource R Unit)
    (version : Version) : Prop :=
  ∀ other, other ≠ version → ∀ fields,
    (codec other).encode (resource.values.get other) = .ok (.object fields) →
    ∀ list ∈ bookkeepingLists, Value.listedNames fields list ⊆ names (declared version)

/-- A value under a name that some version has written, and all versions hold as copied from it. -/
structure Common (declared : Version → List (FieldRule × Shape)) (contents : Version → Fields)
    (name : String) (writer : Version) (field : FieldRule × Shape) (v : Value) : Prop where
  member : field ∈ declared writer
  same : field.1.name = name
  fixed : field.2.rebuild v = some v
  named : isBookkeeping name = false → field.2.wellNamed v = true
  carried : ∀ other,
    Carries (names (declared other)) name (some v) (Keyed.get? name (contents other))

section Idle

variable {resource : Resource R Unit} {contents : Version → Fields}
  (family : Family codec rule declared) (coherent : Coherent codec declared resource contents)
  (empty : ∀ direction, resource.slots direction = [])

include family coherent empty

/-- Without losses what the last writer of a name left is common to all versions. -/
theorem Coherent.exists_common {version : Version} {name : String}
    (known : name ∈ names (declared version)) :
    ∃ writer field v, Common declared contents name writer field v := by
  obtain ⟨writer, holds⟩ := coherent.held version name known
  obtain ⟨field, member, rfl⟩ := List.mem_map.1 holds.present
  obtain ⟨_, held⟩ := (family.type writer).field_of_restores (coherent.written writer)
  obtain ⟨v, found, fixed⟩ := held field member
  refine ⟨writer, field, v, member, rfl, fixed, fun ordinary => ?_, fun other => ?_⟩
  · exact holds.named field member rfl ordinary v found
  · rw [← found]
    exact holds.carried other fun direction _ _ => empty direction

/-- And every version holds what another one has as if it were copied from it. -/
theorem Coherent.carries (direction : Direction)
    (known : ListsKnown codec declared resource direction.source) (name : String) :
    Carries (names (declared direction.dest)) name
      (Keyed.get? name (contents direction.source))
      (Keyed.get? name (contents direction.dest)) := by
  obtain ⟨moulds, _⟩ :=
    (family.type direction.source).field_of_restores (coherent.written direction.source)
  cases stands : Keyed.get? name (contents direction.source) with
  | none => trivial
  | some v =>
    obtain ⟨writer, field, w, common⟩ :=
      coherent.exists_common family empty (moulds.mem_names stands)
    -- Two versions that agree with the last writer agree with each other.
    have here := common.carried direction.source
    rw [stands] at here
    refine here.between (common.carried direction.dest) (fun list => ?_)
      fun texts list stored text inside => ?_
    · obtain ⟨_, _, lists⟩ := (family.type writer).parts
      exact (exists_strings (lists field common.member (common.same ▸ list)) common.fixed).2
    · -- The names in the list of the other version are known by assumption.
      have dest := coherent.written direction.dest
      exact known _ direction.dest_ne_source _ dest.written _ (List.contains_iff_mem.1 list)
        ((mem_listedNames stored).2 inside)

end Idle

section Edit

variable {initials : Version → Fields} {id : Identity} {created resource : Resource R Unit}
  {version : Version}

end Edit

end Resource

end Triversion
