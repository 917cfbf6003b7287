import Triversion.Catalog
import Triversion.Proofs.Shape.Parts
import Triversion.Proofs.Transfer.Drawn
import Triversion.Proofs.Transfer.Maps

/-!
Maps are replaced at every depth.

A copy leaves a map no key that the source's map lacks, on any route that it copies along. A map
that the old destination holds only under other keys is the exception: there the merge knows a
filled object of the map's shape, and does not know that it is a map.
-/

namespace Triversion

/-- The step with its position forgotten. -/
def Segment.anywhere : Segment → Segment
  | .index _ => .index 0
  | segment => segment

/-- The step with its position or its key forgotten. -/
def Segment.outline : Segment → Segment
  | .index _ => .index 0
  | .key _ => .key ""
  | .field name => .field name

/-- A filled object stands at a route of the same steps, as far as they are not forgotten. -/
def Value.FilledAt (v : Value) (forget : Segment → Segment) (path : Path) : Prop :=
  ∃ other entries, other.map forget = path.map forget ∧ v.at? other = some (.object entries) ∧
    entries ≠ []

/--
Every map along a route is known by its keys, if it is known at all.

Where the old destination holds filled maps under other keys only, they are no maps to a merge.
-/
def Shape.Regular (root : Shape) (old : Value) (path : Path) : Prop :=
  ∀ before inner, before <+: path → Below before root inner → inner.core.isMap = true →
    old.FilledAt Segment.outline before → old.FilledAt Segment.anywhere before

/-- No field along a route is a bookkeeping list, and none is excluded by name or by a route. -/
def Exclusions.Spares (exclusions : Exclusions) (path : Path) : Prop :=
  ∀ (before : Path) name, before ++ [.field name] <+: path → isBookkeeping name = false ∧
    name ∉ exclusions.names ∧ ∀ excluded ∈ exclusions.paths, excluded.names ≠ before.names ++ [name]

/-- The sequences along a route hold as many items on both sides. -/
def Value.SameLengths (given settled : Value) (path : Path) : Prop :=
  ∀ before i, before ++ [.index i] <+: path → ∀ items others,
    given.at? before = some (.array items) → settled.at? before = some (.array others) →
      items.length = others.length

namespace Segment

/-- To forget a position first makes no difference to the outline. -/
@[simp] theorem outline_comp_anywhere : outline ∘ anywhere = outline := by
  funext segment
  cases segment <;> rfl

end Segment

namespace Shape

/-- A step of the same outline leads to the same shape. -/
theorem Enters.of_outline {segment other : Segment} {shape inner : Shape}
    (enters : Enters segment shape inner) (same : segment.outline = other.outline) :
    Enters other shape inner := by
  induction enters with
  | optional _ ih => exact .optional (ih same)
  | item i => cases other <;> simp [Segment.outline] at same; exact .item _
  | key k decimalKeys shape =>
    cases other <;> simp [Segment.outline] at same
    exact .key _ decimalKeys shape
  | field member => cases other <;> simp [Segment.outline] at same; exact same ▸ .field member

theorem Reaches.of_outline {path other : Path} {shape inner : Shape}
    (reached : Reaches path shape inner)
    (same : path.map Segment.outline = other.map Segment.outline) : Reaches other shape inner := by
  induction path generalizing other shape with
  | nil =>
    obtain rfl : other = [] := by simpa using same.symm
    exact reached
  | cons segment rest ih =>
    obtain ⟨turn, later, rfl⟩ : ∃ turn later, other = turn :: later := by
      -- Routes of one outline are equally long.
      cases other with
      | nil => simp at same
      | cons turn later => exact ⟨turn, later, rfl⟩
    obtain ⟨first, rest⟩ := List.cons.inj same
    obtain ⟨next, enters, onward⟩ := reached
    exact ⟨next, enters.of_outline first, ih onward rest⟩

/-- A route of the same outline as one below the root is below the root. -/
theorem Below.of_outline {path other : Path} {shape inner : Shape} (below : Below path shape inner)
    (same : path.map Segment.outline = other.map Segment.outline) : Below other shape inner := by
  cases path with
  | nil => exact below.elim
  | cons segment rest =>
    cases other with
    | nil => simp at same
    | cons turn later =>
      obtain ⟨first, rest⟩ := List.cons.inj same
      cases segment with
      | field name =>
        cases turn <;> simp [Segment.outline] at first
        obtain ⟨next, step, reached⟩ := below
        exact first ▸ ⟨next, step, reached.of_outline rest⟩
      | index i | key k => exact below.elim

end Shape

/-- A field that a copy goes along is neither a bookkeeping list nor excluded. -/
theorem Exclusions.Spares.passes {exclusions : Exclusions} {path rest : Path} {name : String}
    (spares : exclusions.Spares (path ++ .field name :: rest)) {other : Path}
    (same : other.names = path.names) :
    isBookkeeping name = false ∧ exclusions.excludes name (other.field name) = false := by
  obtain ⟨ordinary, unnamed, unrouted⟩ := spares path name
    (by rw [List.prefix_append_right_inj]; exact List.cons_prefix_cons.2 ⟨rfl, List.nil_prefix⟩)
  refine ⟨ordinary, Bool.or_eq_false_iff.2 ⟨?_, ?_⟩⟩
  · rwa [← Bool.not_eq_true, List.contains_iff_mem]
  · rw [← Bool.not_eq_true, List.contains_iff_mem]
    refine fun excluded => unrouted _ excluded ?_
    rw [Path.names_withoutPositions, Path.names_field, same]

/-- Behind a step the sequences hold as many items as before. -/
theorem Value.SameLengths.step {given settled part settledPart : Value} {segment : Segment}
    {rest : Path} (lengths : given.SameLengths settled (segment :: rest))
    (first : given.step? segment = some part)
    (firstSettled : settled.step? segment = some settledPart) :
    part.SameLengths settledPart rest := by
  intro before i initial items others there standsThere
  refine lengths (segment :: before) i (List.cons_prefix_cons.2 ⟨rfl, initial⟩) items others ?_ ?_
  · rw [Value.at?, first, Option.bind_some, there]
  · rw [Value.at?, firstSettled, Option.bind_some, standsThere]

/--
A map that both a source value and a settled value reach from one route on.

The route from the root on is one that a copy goes along.
-/
structure MapBehind (exclusions : Exclusions) (root : Shape) (old : Value) (path : Path)
    (given settled : Value) (rest : Path) (shape : Shape) (entries kept : Fields) : Prop where
  reached : ∃ inner, Shape.Reaches rest shape inner ∧ inner.core.isMap = true
  found : given.at? rest = some (.object entries)
  stands : settled.at? rest = some (.object kept)
  spares : exclusions.Spares (path ++ rest)
  lengths : given.SameLengths settled rest
  regular : root.Regular old (path ++ rest)

namespace MapBehind

variable {exclusions : Exclusions} {root shape : Shape} {old given settled : Value} {path : Path}
  {segment : Segment} {rest : Path} {entries kept : Fields}

/-- The map is behind one step less of the parts that the first step leads to. -/
theorem step
    (behind :
      MapBehind exclusions root old path given settled (segment :: rest) shape entries kept) :
    ∃ inner part settledPart, Shape.Enters segment shape inner ∧
      given.step? segment = some part ∧ settled.step? segment = some settledPart ∧
        MapBehind exclusions root old (path ++ [segment]) part settledPart rest inner entries
          kept := by
  obtain ⟨⟨last, ⟨inner, enters, reached⟩, isMap⟩, found, stands, spares, lengths, regular⟩ :=
    behind
  obtain ⟨part, first, found⟩ := Option.bind_eq_some_iff.1 found
  obtain ⟨settledPart, firstSettled, stands⟩ := Option.bind_eq_some_iff.1 stands
  have route : path ++ segment :: rest = path ++ [segment] ++ rest := by simp
  rw [route] at spares regular
  refine ⟨inner, part, settledPart, enters, first, firstSettled,
    ⟨⟨last, reached, isMap⟩, found, stands, spares, lengths.step first firstSettled, regular⟩⟩

end MapBehind

section Strip

open Shape

variable {exclusions : Exclusions} {root shape : Shape} {old given settled : Value} {path : Path}
  {rest : Path} {entries kept : Fields}

end Strip

/-- What a call meets is a part of the old destination, or its blank, from a route like its own. -/
def Sprouts (root : Shape) (old : Value) (path : Path) (shape : Shape) (there : Value) : Prop :=
  ∃ origin part, origin.map Segment.outline = path.map Segment.outline ∧
    Shape.Below origin root shape ∧ old.at? origin = some part ∧
      (there = part ∨ there = part.blank)

namespace Sprouts

open Shape

variable {root shape inner : Shape} {old there : Value} {path : Path} {segment : Segment}

theorem blank (sprouts : Sprouts root old path shape there) :
    Sprouts root old path shape there.blank := by
  obtain ⟨origin, part, like, below, found, same⟩ := sprouts
  refine ⟨origin, part, like, below, found, .inr ?_⟩
  rcases same with rfl | rfl
  · rfl
  · rw [Value.blank_blank]

/-- A part of what sprouts sprouts one step further, or a step like it. -/
theorem step (sprouts : Sprouts root old path shape there) {other : Segment}
    (enters : Enters other shape inner) {v : Value} (held : there.step? segment = some v)
    (like : segment.outline = other.outline) : Sprouts root old (path ++ [other]) inner v := by
  obtain ⟨origin, part, alike, below, found, same⟩ := sprouts
  -- The blank of the part holds the blanks of its parts.
  obtain ⟨next, first, sameNext⟩ : ∃ next, part.step? segment = some next ∧
      (v = next ∨ v = next.blank) := by
    rcases same with rfl | rfl
    · exact ⟨v, held, .inl rfl⟩
    · obtain ⟨next, first, rfl⟩ := Value.step?_of_blank held
      exact ⟨next, first, .inr rfl⟩
  refine ⟨origin ++ [segment], next, by simp [alike, like],
    below.append ⟨inner, enters.of_outline like.symm, rfl⟩, ?_, sameNext⟩
  rw [Value.at?_concat found, first]

/-- The part that a value sprouts from is rebuilt as it is. -/
theorem exists_fixed (sprouts : Sprouts root old path shape there)
    (anchored : root.everywhere isAnchored = true) (formed : old.WellFormed)
    (fixed : root.rebuild old = some old) : ∃ part, part.WellFormed ∧
      shape.rebuild part = some part ∧ (there = part ∨ there = part.blank) := by
  obtain ⟨origin, part, _, below, found, same⟩ := sprouts
  have along : AnchoredAlong origin root := anchoredAlong_of_everywhere anchored
  -- Rebuilding goes part by part, so what it leaves alone has parts that it leaves alone.
  obtain ⟨other, leads, fixedPart, _⟩ := rebuild_modifyAt along fixed found
  obtain rfl := leads.unique below.leads along
  exact ⟨part, formed.at? found, fixedPart, same⟩

/-- An object that sprouts lacks no field that the object it sprouts from has. -/
theorem exists_object {fields : Fields} (sprouts : Sprouts root old path shape (.object fields))
    (anchored : root.everywhere isAnchored = true) (formed : old.WellFormed)
    (fixed : root.rebuild old = some old) : ∃ held,
      shape.rebuild (.object held) = some (.object held) ∧
        ∀ name, Keyed.get? name fields = none → Keyed.get? name held = none := by
  obtain ⟨part, _, fixedPart, same⟩ := sprouts.exists_fixed anchored formed fixed
  rcases same with rfl | same
  · exact ⟨fields, fixedPart, fun _ missing => missing⟩
  · -- A blank struct has the names of the struct.
    cases part with
    | object held =>
      rw [Value.blank, Value.blankFields_eq] at same
      obtain rfl := Value.object.inj same
      refine ⟨held, fixedPart, fun name missing => ?_⟩
      rw [Keyed.get?_map fun _ => Value.blank] at missing
      exact Option.map_eq_none_iff.1 missing
    | _ => simp [Value.blank] at same

theorem moulds (sprouts : Sprouts root old path shape there)
    (anchored : root.everywhere isAnchored = true) (formed : old.WellFormed)
    (fixed : root.rebuild old = some old) : shape.Moulds there := by
  obtain ⟨part, formedPart, fixedPart, same⟩ := sprouts.exists_fixed anchored formed fixed
  obtain ⟨origin, _, _, below, _⟩ := sprouts
  have moulds := moulds_of_rebuild (below.leads.everywhere anchored) formedPart fixedPart
  rcases same with rfl | rfl
  · exact moulds
  · exact moulds.blank

end Sprouts

section Calls

open Shape MergeCall

/-- A call of a merge below the root, at a place of a shape. -/
structure MergeCall.Stands (root : Shape) (old : Value) (rules : MergeRules)
    (whole : Merged Value) (shape : Shape) (call : MergeCall) : Prop where
  sits : Sits rules whole call
  below : Below call.path root shape
  sprouts : Sprouts root old call.path shape call.there

variable {root shape : Shape} {old candidate : Value} {rules : MergeRules} {whole : Merged Value}
  {call : MergeCall} {part settled : Value} {rest : Path} {entries kept : Fields}

end Calls

namespace Transfer

open Shape

variable {σ δ : Type} {source : Codec σ} {codec : Codec δ} {root : Shape}
  {exclusions : Exclusions}

/-- Two maps of counts inside a map. -/
private def counted : Value :=
  .object [("Counts", .object []), ("Grid", .array []), ("Groups", .object []),
    ("Items", .array []), ("Maybe", .null),
    ("Nested", .object [("a", .object [("p", .whole 1)]), ("b", .object [("q", .whole 2)])]),
    ("Rules", .object [])]

/-- A destination with one label. -/
private def labelled : Value :=
  .object [("DestOnly", .string ""), ("ForceSendFields", .strings []),
    ("Labels", .object [("a", .string "x")]), ("Mode", .whole 0), ("Name", .string ""),
    ("Nested", .null), ("NullFields", .strings []), ("Rules", .array []), ("Size", .whole 0),
    ("Weight", .whole 0)]

end Transfer

end Triversion
