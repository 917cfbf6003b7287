import Triversion.Proofs.Resource.Propagation
import Triversion.Proofs.Transfer.Carried

/-!
Resources whose three versions share fields of one type.

Every name has a version that wrote it last. As long as that version has nothing in its slots, the
other versions hold the name as a copy that loses nothing leaves it.
-/

namespace Triversion

open Shape

/-- Three record types in which a name stands for akin shapes wherever it is declared. -/
structure Family {R : Version → Type} (codec : (version : Version) → Codec (R version))
    (rule : Version → RecordRule) (declared : Version → List (FieldRule × Shape)) : Prop where
  type : ∀ version, (codec version).Replaceable (rule version) (declared version)
  akin : ∀ version other, ∀ field ∈ declared version, ∀ namesake ∈ declared other,
    field.1.name = namesake.1.name → Akin field.2 namesake.2
  admitted : ∀ version other, (rule other).unknown = .rejected →
    names (declared version) ⊆ names (declared other)

section Family

variable {R : Version → Type} {codec : (version : Version) → Codec (R version)}
  {rule : Version → RecordRule} {declared : Version → List (FieldRule × Shape)}

/-- The ordinary fields of a written version are well named. -/
def WellNamedIn (declared : List (FieldRule × Shape)) (fields : Fields) (name : String) : Prop :=
  ∀ field ∈ declared, field.1.name = name → isBookkeeping name = false → ∀ v,
    Keyed.get? name fields = some v → field.2.wellNamed v = true

/-- All fields of a well-named record are well named. -/
theorem wellNamedIn_of_record {rule : RecordRule} {declared : List (FieldRule × Shape)}
    {fields : Fields} (named : (Shape.record rule declared).wellNamed (.object fields) = true)
    (name : String) : WellNamedIn declared fields name :=
  fun field member same _ v held => (wellNamed_record.1 named).2 field member v (same ▸ held)

/-- What is written of one version could be taken over by every other one of its family. -/
theorem Family.suits (family : Family codec rule declared) {version : Version} {x : R version}
    {given : Fields} (restores : (codec version).Restores x (.object given))
    (named : ∀ name, WellNamedIn (declared version) given name) (other : Version) :
    Suits (rule other) (declared other) given := by
  obtain ⟨_, inside, lists⟩ := (family.type version).parts
  obtain ⟨moulds, held⟩ := (family.type version).field_of_restores restores
  -- Whatever is given under a name belongs to the field of this name.
  have fieldOf : ∀ name v, Keyed.get? name given = some v → ∃ field ∈ declared version,
      field.1.name = name ∧ field.2.rebuild v = some v := by
    intro name v taken
    obtain ⟨field, member, rfl⟩ := List.mem_map.1 (moulds.mem_names taken)
    obtain ⟨w, stands, fixed⟩ := held field member
    obtain rfl := Option.some.inj (stands.symm.trans taken)
    exact ⟨field, member, rfl, fixed⟩
  refine ⟨restores.wellFormed, fun namesake listed ordinary v taken => ?_,
    fun name list v taken => ?_, fun rejects name v taken => ?_⟩
  · obtain ⟨field, member, same, fixed⟩ := fieldOf _ v taken
    exact ⟨field.2, family.akin version other field member namesake listed same,
      inside field member, fixed, named _ field member same ordinary v taken⟩
  · obtain ⟨field, member, rfl, fixed⟩ := fieldOf name v taken
    exact (exists_strings (lists field member list) fixed).2
  · exact family.admitted version other rejects (moulds.mem_names taken)

/-- A well-named version holds every name as a copy into itself leaves it. -/
theorem Family.carries_self (family : Family codec rule declared) {version : Version}
    {x : R version} {given : Fields} (restores : (codec version).Restores x (.object given))
    (named : (Shape.record (rule version) (declared version)).wellNamed (.object given) = true)
    (name : String) :
    Carries (names (declared version)) name (Keyed.get? name given) (Keyed.get? name given) := by
  cases taken : Keyed.get? name given with
  | none => trivial
  | some v =>
    cases list : isBookkeeping name with
    | false => rw [Carries, list, if_neg Bool.false_ne_true]
    | true =>
      rw [Carries, list, if_pos rfl]
      have suits := family.suits restores (wellNamedIn_of_record named) version
      obtain ⟨texts, rfl⟩ := suits.lists name list v taken
      -- The list names fields of the version, so all of it is kept.
      refine congrArg Value.array (keptNames_strings fun text inside => ?_)
      exact namesOwnFields_iff.1 (wellNamed_record.1 named).1 name list _ taken text
        (List.mem_map_of_mem inside)

end Family

namespace Resource

variable {R : Version → Type} {codec : (version : Version) → Codec (R version)}
  {rule : Version → RecordRule} {declared : Version → List (FieldRule × Shape)}

/-- A version that wrote a name last, and what the others hold of it as long as nothing was lost. -/
structure Holds (declared : Version → List (FieldRule × Shape))
    (slots : Direction → List Loss) (contents : Version → Fields) (holder : Version)
    (name : String) : Prop where
  present : name ∈ names (declared holder)
  named : WellNamedIn (declared holder) (contents holder) name
  carried : ∀ other,
    (∀ direction : Direction, direction.source = holder → direction.dest = other →
      slots direction = []) →
    Carries (names (declared other)) name (Keyed.get? name (contents holder))
      (Keyed.get? name (contents other))

/-- A resource with what its versions are written as, where every name has a last writer. -/
structure Coherent {σ : Type} (codec : (version : Version) → Codec (R version))
    (declared : Version → List (FieldRule × Shape)) (resource : Resource R σ)
    (contents : Version → Fields) : Prop where
  written : ∀ version,
    (codec version).Restores (resource.values.get version) (.object (contents version))
  held : ∀ version, ∀ name ∈ names (declared version),
    ∃ holder, Holds declared resource.slots contents holder name

section Step

variable {resource : Resource R Unit} {contents : Version → Fields}

/-- What a successful propagation leaves in one of the two versions that it goes to. -/
theorem arrives (family : Family codec rule declared)
    (written : ∀ version,
      (codec version).Restores (resource.values.get version) (.object (contents version)))
    {direction : Direction} {x : R direction.source} {given : Fields}
    (restores : (codec direction.source).Restores x (.object given))
    (named : ∀ name, WellNamedIn (declared direction.source) given name)
    (success : (conveyAll (Kind.plain codec) (resource.withValue direction.source x)
      (Direction.outbound direction.source)).2 = .ok ()) :
    let ending := (conveyAll (Kind.plain codec) (resource.withValue direction.source x)
      (Direction.outbound direction.source)).1
    ∃ now, (codec direction.dest).Restores (ending.values.get direction.dest) (.object now) ∧
      (∀ name, Keyed.get? name given = none →
        Keyed.get? name now = Keyed.get? name (contents direction.dest)) ∧
      (ending.slots direction = [] → ∀ name, Carries (names (declared direction.dest)) name
        (Keyed.get? name given) (Keyed.get? name now)) := by
  intro ending
  obtain ⟨slot, copied, before, after, fits, bridged⟩ := conveyAll_of_ok success rfl
  -- A plain kind has no hook that could change what was copied.
  have arrived : ending.values.get direction.dest = copied := by
    have idle : HookRun.idle copied before = ⟨ending.values.get direction.dest, after, .passed⟩ :=
      bridged
    exact (congrArg HookRun.dest idle).symm
  -- The copy goes from the new value into what the destination held before.
  have suits := family.suits restores named direction.dest
  have type := family.type direction.dest
  have source : (resource.withValue direction.source x).values.get direction.source = x :=
    Triple.get_set_self _ _ _
  have dest : (resource.withValue direction.source x).values.get direction.dest =
      resource.values.get direction.dest :=
    Triple.get_set_of_ne _ (Ne.symm direction.dest_ne_source) _
  have outcome : Transfer.copy .none (codec direction.source) (codec direction.dest) x
      (resource.values.get direction.dest) = ⟨.ok copied, ending.slots direction⟩ := by
    rw [slot]
    have same : (resource.withValue direction.source x).transfer (Kind.plain codec) direction =
        ⟨.ok copied, _⟩ :=
      Transfer.outcome_of_toOption (by rw [fits]; rfl)
    rw [← same, transfer, source, dest]
    rfl
  rw [arrived]
  obtain ⟨now, keeps, left⟩ := Transfer.get?_of_copy type (written direction.dest)
    restores.written restores.wellFormed outcome
  refine ⟨now, keeps, left, fun empty => ?_⟩
  rw [empty] at outcome
  obtain ⟨same, again, carries⟩ := Transfer.carries_of_copy type (written direction.dest)
    restores.written suits outcome
  obtain rfl := Value.object.inj (Except.ok.inj (keeps.written.symm.trans again.written))
  exact carries

/--
A version after another one has taken a value and was propagated.

It holds what it held under the names that the value lacks, and the rest as the value has it unless
something was lost on the way.
-/
structure Received (declared : Version → List (FieldRule × Shape)) (before : Fields)
    (version : Version) (given : Fields) (slots : Direction → List Loss) (other : Version)
    (now : Fields) : Prop where
  own : other = version → now = given
  kept : ∀ name, name ∉ names (declared version) → Keyed.get? name now = Keyed.get? name before
  carried : (∀ direction : Direction, direction.source = version → direction.dest = other →
      slots direction = []) → ∀ name,
    Carries (names (declared other)) name (Keyed.get? name given) (Keyed.get? name now)

/-- After a successful propagation every version has received the value. -/
theorem Coherent.received (family : Family codec rule declared)
    (coherent : Coherent codec declared resource contents) {version : Version} {x : R version}
    {given : Fields} (restores : (codec version).Restores x (.object given))
    (named : (Shape.record (rule version) (declared version)).wellNamed (.object given) = true)
    (success : (conveyAll (Kind.plain codec) (resource.withValue version x)
      (Direction.outbound version)).2 = .ok ()) (other : Version) :
    let ending := (conveyAll (Kind.plain codec) (resource.withValue version x)
      (Direction.outbound version)).1
    ∃ now, (codec other).Restores (ending.values.get other) (.object now) ∧
      Received declared (contents other) version given ending.slots other now := by
  intro ending
  have type := family.type version
  obtain ⟨moulds, _⟩ := type.field_of_restores restores
  by_cases same : version = other
  · -- The version itself keeps the value, and has no other names than it had.
    subst same
    obtain ⟨mouldsBefore, _⟩ := type.field_of_restores (coherent.written version)
    have source : ending.values.get version = x :=
      (conveyAll_propagates _ (resource.withValue version x) version).source.trans
        (Triple.get_set_self _ _ _)
    refine ⟨given, source ▸ restores, fun _ => rfl, fun name unknown => ?_, fun _ => ?_⟩
    · rw [moulds.get?_of_unknown unknown, mouldsBefore.get?_of_unknown unknown]
    · exact family.carries_self restores named
  · obtain ⟨direction, rfl, rfl⟩ := Direction.exists_between same
    obtain ⟨now, written, left, carries⟩ :=
      arrives family coherent.written restores (wellNamedIn_of_record named) success
    exact ⟨now, written, fun back => (same back.symm).elim,
      fun name unknown => left name (moulds.get?_of_unknown unknown),
      fun empty => carries (empty direction rfl rfl)⟩

/-- A version that takes a well-named value and is propagated leaves the resource coherent. -/
theorem Coherent.conveyed (family : Family codec rule declared)
    (coherent : Coherent codec declared resource contents) {version : Version} {x : R version}
    {given : Fields} (restores : (codec version).Restores x (.object given))
    (named : (Shape.record (rule version) (declared version)).wellNamed (.object given) = true)
    (success : (conveyAll (Kind.plain codec) (resource.withValue version x)
      (Direction.outbound version)).2 = .ok ()) :
    ∃ after, Coherent codec declared (conveyAll (Kind.plain codec) (resource.withValue version x)
      (Direction.outbound version)).1 after := by
  obtain ⟨after, received⟩ := Classical.skolem.1 (coherent.received family restores named success)
  have slots := (conveyAll_propagates (Kind.plain codec) (resource.withValue version x)
    version).slots
  have own : after version = given := (received version).2.own rfl
  refine ⟨after, fun other => (received other).1, fun other name listed => ?_⟩
  by_cases known : name ∈ names (declared version)
  · -- The name has just been written by the version itself.
    refine ⟨version, known, ?_, fun another empty => ?_⟩
    · rw [own]
      exact wellNamedIn_of_record named name
    · rw [own]
      exact (received another).2.carried empty name
  · -- A name that the version lacks is held as before, and so are the slots of its holder.
    obtain ⟨holder, present, namedHolder, carried⟩ := coherent.held other name listed
    have stays := fun another => (received another).2.kept name known
    have different : holder ≠ version := by
      rintro rfl
      exact known present
    refine ⟨holder, present, ?_, fun another empty => ?_⟩
    · intro field member same ordinary v held
      exact namedHolder field member same ordinary v ((stays holder).symm.trans held)
    · rw [stays holder, stays another]
      refine carried another fun direction leaves ends => ?_
      have untouched := slots direction (leaves ▸ different)
      exact untouched.symm.trans (empty direction leaves ends)

end Step

end Resource

end Triversion
