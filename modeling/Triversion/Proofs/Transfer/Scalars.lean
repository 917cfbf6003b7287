import Triversion.Proofs.Transfer.Writes
import Triversion.Proofs.Value.Scalars

/-!
What a merge does with the scalars of its source.

Without exclusions a scalar of the source either stands below a write of the merged value, or a
loss on the way to it has been recorded.
-/

namespace Triversion

namespace Exclusions

/-- Without exclusions nothing is taken out. -/
theorem strip_none (path : Path) (v : Value) : none.strip path v = v := by
  induction v using Value.inductionOn generalizing path with
  | null => rfl
  | bool b => rfl
  | number n => rfl
  | string s => rfl
  | array items ih =>
    rw [strip, stripItems_eq]
    have kept : ∀ item ∈ items.zipIdx, none.strip (path.index item.2) item.1 = item.1 := by
      intro item listed
      exact ih item.1 (List.mem_of_getElem? (List.mem_zipIdx_iff_getElem?.1 listed)) _
    rw [List.map_congr_left kept, List.zipIdx_map_fst]
  | object fields ih =>
    -- Every field passes the filter, and is stripped of nothing.
    have all : (fields.filter fun entry => !none.excludes entry.1 (path.field entry.1)) = fields :=
      List.filter_eq_self.2 fun _ _ => rfl
    rw [strip, stripFields_eq, all]
    have kept : ∀ entry ∈ fields, (entry.1, none.strip (path.field entry.1) entry.2) = entry :=
      fun entry listed => Prod.ext rfl (ih entry listed _)
    rw [List.map_congr_left kept, List.map_id']

end Exclusions

/-- Without exclusions a map is filled with the entries as they are. -/
theorem wholeEntries_none (path : Path) (given : Fields) :
    wholeEntries .none path given = given := by
  simp only [wholeEntries, Exclusions.strip_none, List.map_id']

/-- A route goes on from a path and spells a beginning of the names. -/
def Path.Reaches (path route : Path) (names : List String) : Prop :=
  ∃ rest initial, route = path ++ rest ∧ rest.Spells initial ∧ initial <+: names

namespace Path.Reaches

variable {path route : Path} {names : List String}

/-- A path reaches itself. -/
theorem refl (path : Path) (names : List String) : path.Reaches path names :=
  ⟨[], [], (List.append_nil path).symm, rfl, List.nil_prefix⟩

/-- What goes on behind a named step goes on before it. -/
theorem step {segment : Segment} {name : String} (named : segment.name? = some name)
    (reaches : Path.Reaches (path ++ [segment]) route names) :
    path.Reaches route (name :: names) := by
  obtain ⟨rest, initial, rfl, spells, begins⟩ := reaches
  refine ⟨segment :: rest, name :: initial, by simp, ?_, (List.prefix_cons_inj name).2 begins⟩
  simp only [Spells, List.map_cons, named, List.cons.injEq, true_and]
  exact spells

end Path.Reaches

/-- A scalar of the source is found below a write, or lost on the way. -/
def Merged.Accounts (path : Path) (merged : Merged Value) (names : List String)
    (scalar : Value) : Prop :=
  (∃ loss ∈ merged.journal.losses, path.Reaches loss.path names) ∨
    merged.result.HasScalar names scalar ∧
      ∃ write ∈ merged.journal.writes, path.Reaches write.path names

namespace Merged.Accounts

variable {path : Path} {names : List String} {scalar : Value}

/-- A scalar inside a value that is written as a whole is found below that write. -/
theorem of_whole {merged : Merged Value} {reversal : Reversal}
    (whole : ⟨path, reversal⟩ ∈ merged.journal.writes)
    (has : merged.result.HasScalar names scalar) : merged.Accounts path names scalar :=
  .inr ⟨has, _, whole, .refl path names⟩

/-- A scalar inside a value that is lost as a whole is lost with it. -/
theorem of_reject {there given : Value} (has : given.HasScalar names scalar) :
    (rejectAt there path given).Accounts path names scalar := by
  refine .inl ⟨⟨path, given⟩, ?_, .refl path names⟩
  simp [rejectAt, Journal.lost, lossOf, has.not_blank]

/-- What accounts for a scalar of a part accounts for it in the whole. -/
theorem of_part {part : Merged Value} (segment : Segment) {name : String} {fields : Fields}
    {journal : Journal} (named : segment.name? = some name)
    (accounts : part.Accounts (path ++ [segment]) names scalar)
    (found : Keyed.get? name fields = some part.result)
    (writes : part.journal.writes ⊆ journal.writes)
    (losses : part.journal.losses ⊆ journal.losses) :
    Merged.Accounts path ⟨.object fields, journal⟩ (name :: names) scalar := by
  -- The step that leads to the part is named like the first name of the route.
  rcases accounts with ⟨loss, listed, reaches⟩ | ⟨has, write, listed, reaches⟩
  · exact .inl ⟨loss, losses listed, reaches.step named⟩
  · exact .inr ⟨Value.HasScalar.object_iff.2 ⟨_, found, has⟩, write, writes listed,
      reaches.step named⟩

end Merged.Accounts

section Accounts

variable {maps : List Path} {path : Path} {names : List String} {scalar : Value}

/-- A scalar that is merged is found, or lost. -/
theorem accounts_mergeScalar {there given : Value} (has : given.HasScalar names scalar) :
    (mergeScalar ⟨.none, maps⟩ there path given).Accounts path names scalar := by
  unfold mergeScalar
  split
  · -- Null takes anything, and nothing is excluded from it.
    refine .of_whole List.mem_cons_self ?_
    rwa [takeWhole, Exclusions.strip_none]
  · split
    · exact .of_whole List.mem_cons_self has
    · exact .of_reject has

/-- A null destination takes every scalar of the source. -/
theorem accounts_takeWhole {given : Value} (has : given.HasScalar names scalar) :
    (takeWhole ⟨.none, maps⟩ path given).Accounts path names scalar := by
  refine .of_whole List.mem_cons_self ?_
  rwa [takeWhole, Exclusions.strip_none]

/-- The journal of a part is a part of the journal of the whole. -/
theorem Journal.all_subset {journals : List Journal} {journal : Journal}
    (member : journal ∈ journals) :
    journal.writes ⊆ (Journal.all journals).writes ∧
      journal.losses ⊆ (Journal.all journals).losses := by
  rw [Journal.writes_all, Journal.losses_all]
  exact ⟨fun _ inside => List.mem_flatMap.2 ⟨journal, member, inside⟩,
    fun _ inside => List.mem_flatMap.2 ⟨journal, member, inside⟩⟩

/-- A scalar of one entry is accounted for by the merge of that entry. -/
theorem accounts_mergeEntries {rules : MergeRules} {shape part : Value} {given : Fields}
    {journal : Journal} {name : String} (found : Keyed.get? name given = some part)
    (accounts : (mergeInto rules shape (path.key name) part).Accounts (path.key name) names scalar)
    (contains : (mergeEntries rules shape path given).journal.writes ⊆ journal.writes ∧
      (mergeEntries rules shape path given).journal.losses ⊆ journal.losses) :
    Merged.Accounts path ⟨.object (mergeEntries rules shape path given).result, journal⟩
      (name :: names) scalar := by
  -- The entry keeps its key and its journal, whatever the other entries are.
  rw [mergeEntries_eq] at contains ⊢
  have listed := Journal.all_subset (List.mem_map_of_mem
    (f := fun entry : String × Value => (mergeInto rules shape (path.key entry.1) entry.2).journal)
    (Keyed.mem_of_get? found))
  refine .of_part (.key name) rfl accounts ?_
    (List.Subset.trans listed.1 contains.1) (List.Subset.trans listed.2 contains.2)
  rw [Keyed.get?_map fun k v => (mergeInto rules shape (path.key k) v).result, found]
  rfl

/-- A scalar of one field is accounted for by the merge of that field. -/
theorem accounts_mergeObjects {fields given : Fields} {name : String} {part : Value}
    (formed : (Value.object given).WellFormed) (ordinary : isBookkeeping name = false)
    (found : Keyed.get? name given = some part) (has : part.HasScalar names scalar)
    (accounts : ∀ there, Keyed.get? name fields = some there →
      (mergeInto ⟨.none, maps⟩ there (path.field name) part).Accounts (path.field name) names
        scalar) :
    ((mergeObjects ⟨.none, maps⟩ path fields given).map Value.object).Accounts path
      (name :: names) scalar := by
  have taken : Keyed.get? name (takenFields ⟨.none, maps⟩ path given) = some part := by
    rw [get?_takenFields, MergeRules.skips, ordinary, found]
    rfl
  have field : (mergeField ⟨.none, maps⟩ path (Keyed.get? name fields) name part).Accounts
      (path.field name) names scalar := by
    cases there : Keyed.get? name fields with
    | some v => exact accounts v there
    | none =>
      -- A field that the destination lacks enters it as the source has it.
      refine .of_whole List.mem_cons_self ?_
      rwa [mergeField, Exclusions.strip_none]
  have journal := journal_mergeObjects ⟨.none, maps⟩ path formed.distinct fields
  have listed := Journal.all_subset (List.mem_map_of_mem
    (f := fun entry : String × Value =>
      (mergeField ⟨.none, maps⟩ path (Keyed.get? entry.1 fields) entry.1 entry.2).journal)
    (Keyed.mem_of_get? taken))
  rw [← journal] at listed
  refine .of_part (.field name) rfl field ?_ listed.1 listed.2
  rw [get?_mergeObjects _ _ formed.distinct fields ordinary, taken]
  rfl

/-- Every scalar of the source is found below a write, or lost. -/
theorem accounts_mergeInto {given : Value} (formed : given.WellFormed) {there : Value}
    (path : Path) (ordinary : ∀ name ∈ names, isBookkeeping name = false)
    (has : given.HasScalar names scalar) :
    (mergeInto ⟨.none, maps⟩ there path given).Accounts path names scalar := by
  induction given using Value.inductionOn generalizing there path names with
  | null => exact absurd has.not_blank (by simp [Value.isBlank])
  | bool b => exact accounts_mergeScalar has
  | number n => exact accounts_mergeScalar has
  | string s => exact accounts_mergeScalar has
  | array given ih => exact absurd has Value.HasScalar.not_array
  | object given ih =>
    obtain ⟨name, rest, part, rfl, found, inside⟩ := has.of_object
    obtain ⟨ordinaryName, ordinary⟩ := List.forall_mem_cons.1 ordinary
    -- Whatever the part is merged into accounts for the scalar, by induction.
    have accounts : ∀ there path,
        (mergeInto ⟨.none, maps⟩ there path part).Accounts path rest scalar := fun _ path =>
      ih _ (Keyed.mem_of_get? found) (formed.of_get? found) path ordinary inside
    cases there with
    | null => exact accounts_takeWhole has
    | object there =>
      cases there with
      | nil =>
        -- An empty object is filled as a map, with one write for all entries.
        refine .of_whole (List.mem_append_right _ List.mem_cons_self) ?_
        rwa [mergeInto, wholeEntries_none]
      | cons first others =>
        obtain ⟨key, v⟩ := first
        rw [mergeInto]
        split
        · exact accounts_mergeEntries found (accounts _ _)
            ⟨List.subset_append_right _ _, List.subset_append_right _ _⟩
        · exact accounts_mergeObjects formed ordinaryName found inside fun there _ =>
            accounts there _
    | _ => exact .of_reject has

end Accounts

end Triversion
