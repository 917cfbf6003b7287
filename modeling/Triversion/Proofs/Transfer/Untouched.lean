import Triversion.Catalog
import Triversion.Proofs.Transfer.Drawn

/-!
What a copy leaves alone.

Where structs of both sides meet, a field that the source lacks or that is excluded keeps its old
value, through the merge and through all that is taken back and made again behind it.
-/

namespace Triversion

/-- Structs of the destination and of the source that a merge brings together at a route. -/
inductive StructsMeet (rules : MergeRules) (fields given : Fields) : Path → Fields → Fields → Prop
  where
  | root : StructsMeet rules fields given Path.root fields given
  | field {path : Path} {name : String} {outer outerGiven inner innerGiven : Fields}
    (meet : StructsMeet rules fields given path outer outerGiven)
    (takes : rules.skips path name = false)
    (there : Keyed.get? name outer = some (.object inner))
    (source : Keyed.get? name outerGiven = some (.object innerGiven))
    (notMap : isMapAt rules.maps (path.field name) = false) :
    StructsMeet rules fields given (path.field name) inner innerGiven

namespace StructsMeet

open MergeCall

variable {rules : MergeRules} {fields given : Fields} {path : Path} {inner innerGiven : Fields}

/-- The merge knows no map where structs meet. -/
theorem notMap (meet : StructsMeet rules fields given path inner innerGiven) :
    isMapAt rules.maps path = false := by
  cases meet with
  | root => rfl
  | field _ _ _ _ notMap => exact notMap

/-- A struct with fields is met behind a root with fields. -/
theorem filled_root (meet : StructsMeet rules fields given path inner innerGiven)
    (filled : inner ≠ []) : fields ≠ [] := by
  induction meet with
  | root => exact filled
  | field _ _ there _ _ ih => exact ih (by rintro rfl; simp [Keyed.get?] at there)

/-- Where structs meet, a call of the merge brings them together. -/
theorem sits (meet : StructsMeet rules fields given path inner innerGiven) {whole : Merged Value}
    (atRoot : Sits rules whole ⟨.object fields, Path.root, .object given⟩) :
    Sits rules whole ⟨.object inner, path, .object innerGiven⟩ := by
  induction meet with
  | root => exact atRoot
  | field meet takes there source _ ih =>
    -- The struct one step before takes the field, so its call makes the next one.
    have taken := mem_takenFields.2 ⟨Keyed.mem_of_get? source, takes⟩
    exact ih.makes (.field meet.notMap taken there)

/-- Where structs meet, the candidate has what the merge does not take as it was. -/
theorem at?_untaken (meet : StructsMeet rules fields given path inner innerGiven)
    {whole : Merged Value} {candidate : Value} (drawn : Drawn whole candidate)
    (atRoot : Sits rules whole ⟨.object fields, Path.root, .object given⟩) {name : String}
    {v : Value} (held : Keyed.get? name inner = some v) (ordinary : isBookkeeping name = false)
    (untaken : Keyed.get? name (takenFields rules path innerGiven) = none) :
    candidate.at? (path.field name) = some v := by
  have sits := meet.sits atRoot
  have filled : inner ≠ [] := by
    rintro rfl
    simp [Keyed.get?] at held
  obtain ⟨part, stands, _, isObject⟩ := sits.exists_part drawn (.struct filled meet.notMap)
  obtain ⟨entries, rfl⟩ := Value.isObject_iff.1 isObject
  -- Only a bookkeeping list is merged although it is not taken.
  have left : leftField inner innerGiven name v = v := by simp [leftField, ordinary]
  rw [Path.field, Value.at?_concat stands]
  change Keyed.get? name entries = some v
  rw [sits.of_untaken drawn filled meet.notMap stands untaken, held, Option.map_some, left]

end StructsMeet

namespace Transfer

variable {σ δ : Type} {source : Codec σ} {codec : Codec δ}

/--
Untouched fields stay.

At every route of fields where structs of both sides meet, a field of the old destination that the
source lacks there, or that is excluded by its name or its route, has its old value in the object
that the new destination is rebuilt from.
-/
theorem untouched_fields_stay (exclusions : Exclusions) {src : σ} {dest new : δ}
    {there given : Value} (writtenThere : codec.encode dest = .ok there)
    (formedThere : there.WellFormed) (written : source.encode src = .ok given)
    (formed : given.WellFormed) {losses : List Loss}
    (copied : copy exclusions source codec src dest = ⟨.ok new, losses⟩) :
    ∃ fields taken whole lost, there = .object fields ∧ given = .object taken ∧
      candidate exclusions codec fields taken = (whole, lost) ∧ codec.decode whole = some new ∧
      ∀ path inner innerTaken name v,
        StructsMeet ⟨exclusions, mapPaths codec.roundTrip fields⟩ fields taken path inner
          innerTaken →
        Keyed.get? name inner = some v → isBookkeeping name = false →
        (Keyed.get? name innerTaken = none ∨ exclusions.excludes name (path.field name) = true) →
          whole.at? (path.field name) = some v := by
  obtain ⟨taken, fields, whole, lost, settled, maps, encoded, encodedThere, chosen, rebuilt, _⟩ :=
    copy_eq_ok copied
  obtain rfl := Except.ok.inj (encoded.symm.trans written)
  obtain rfl := Except.ok.inj (encodedThere.symm.trans writtenThere)
  refine ⟨fields, taken, whole, lost, rfl, rfl, chosen, rebuilt, ?_⟩
  intro path inner innerTaken name v meet held ordinary spared
  have filled : fields ≠ [] := meet.filled_root (by rintro rfl; simp [Keyed.get?] at held)
  have untaken : Keyed.get? name
      (takenFields ⟨exclusions, mapPaths codec.roundTrip fields⟩ path innerTaken) = none := by
    rw [get?_takenFields]
    rcases spared with missing | excluded
    · rw [missing, ite_self]
    · rw [if_pos (by simp [MergeRules.skips, excluded])]
  exact meet.at?_untaken (drawn_candidate formedThere formed chosen rebuilt)
    (sits_merge exclusions codec formedThere formed filled) held ordinary untaken

/-- The fields of a service with a backend at a port. -/
private def portedFields : Fields :=
  [("Backend", .object [("Address", .string "a"), ("ForceSendFields", .strings []),
      ("NullFields", .strings []), ("Port", .whole 5)]), ("Description", .string ""),
    ("ForceSendFields", .strings []), ("LegacyMode", .string ""), ("Name", .string ""),
    ("NullFields", .strings []), ("Ports", .array []), ("SelfLink", .string "")]

/-- Another address and port for the backend, and ports of which one is refused. -/
private def readdressed : Fields :=
  [("Backend", .object [("Address", .string "b"), ("Port", .whole 9)]),
    ("Ports", .array [.whole 80, .string "http"])]

/-- The port of the backend is left alone. -/
private def sparingPort : Exclusions :=
  Exclusions.none.excludePath [.field "Backend", .field "Port"]

/-- The service as a destination. -/
private def portedService : Codec Value :=
  Catalog.stableService.codec "StableService"

/-- An excluded port stays, although all writes around it are taken back and made again. -/
theorem untouched_fields_stay_of_port : ∃ new losses whole lost,
    copy sparingPort (Shape.any.codec "Value") portedService (.object readdressed)
      (.object portedFields) = ⟨.ok new, losses⟩ ∧
    candidate sparingPort portedService portedFields readdressed = (whole, lost) ∧
    lost = [⟨[.field "Ports", .index 1], .string "http"⟩] ∧
    whole.at? [.field "Backend", .field "Address"] = some (.string "b") ∧
    whole.at? [.field "Backend", .field "Port"] = some (.whole 5) := by
  have succeeds : (copy sparingPort (Shape.any.codec "Value") portedService (.object readdressed)
      (.object portedFields)).result.toOption.isSome = true := by decide +kernel
  obtain ⟨new, yields⟩ := Option.isSome_iff_exists.1 succeeds
  have copied := outcome_of_toOption yields
  obtain ⟨fields, taken, whole, lost, same, sameTaken, chosen, _, stays⟩ :=
    untouched_fields_stay sparingPort rfl (by decide) rfl (by decide) copied
  obtain rfl : portedFields = fields := Value.object.inj same
  obtain rfl : readdressed = taken := Value.object.inj sameTaken
  -- The candidate is made by halving: one of the ports is lost, and the address is moved.
  have halved : (candidate sparingPort portedService portedFields readdressed).2 =
        [⟨[.field "Ports", .index 1], .string "http"⟩] ∧
      (candidate sparingPort portedService portedFields readdressed).1.at?
        [.field "Backend", .field "Address"] = some (.string "b") := by decide +kernel
  rw [chosen] at halved
  have meet : StructsMeet ⟨sparingPort, mapPaths portedService.roundTrip portedFields⟩
      portedFields readdressed [.field "Backend"] _ _ :=
    .field .root (by decide) rfl rfl (by decide +kernel)
  exact ⟨new, _, whole, lost, copied, chosen, halved.1, halved.2,
    stays _ _ _ "Port" _ meet rfl rfl (.inr (by decide))⟩

end Transfer

end Triversion
