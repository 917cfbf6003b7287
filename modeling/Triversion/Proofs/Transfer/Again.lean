import Triversion.Proofs.Transfer.Maps
import Triversion.Proofs.Transfer.Settling

/-!
Copying the same source again.

Into a value of fixed structure every copy goes through, and made again it changes nothing and
reports the same.
-/

namespace Triversion

open Shape

/-- A part of two candidates, the second one made by a merge into what the first one settled as. -/
structure Repeats (root : Shape) (path : Path) (whole : Value) (first : Merged Value)
    (candidate wholeAgain : Value) (second : Merged Value) (candidateAgain : Value) : Prop where
  stands : candidateAgain.at? path = candidate.at? path
  losses : second.journal.losses = first.journal.losses
  refusals : refusals root wholeAgain second.journal.writes =
    refusals root whole first.journal.writes

section Place

variable {root : Shape} {path : Path} {whole wholeAgain candidate candidateAgain : Value}
  {first second : Merged Value}
  (before : Place root path whole first (root.keeps whole) candidate)
  (after : Place root path wholeAgain second (root.keeps wholeAgain) candidateAgain)

include before after

/-- Where nothing is written, merges with the same result and losses repeat each other. -/
theorem repeats_silent (silent : first.journal.writes = [])
    (silentAgain : second.journal.writes = []) (result : second.result = first.result)
    (losses : second.journal.losses = first.journal.losses) :
    Repeats root path whole first candidate wholeAgain second candidateAgain :=
  ⟨by rw [before.silent silent, after.silent silentAgain, result], losses,
    by rw [silent, silentAgain]; rfl⟩

/-- So do merges that write the part as a whole, if what is taken back leaves the same. -/
theorem repeats_single {reversal reversalAgain : Reversal}
    (writes : first.journal.writes = [⟨path, reversal⟩])
    (writesAgain : second.journal.writes = [⟨path, reversalAgain⟩])
    (result : second.result = first.result)
    (losses : second.journal.losses = first.journal.losses)
    (alike : root.keeps wholeAgain ⟨path, reversalAgain⟩ = root.keeps whole ⟨path, reversal⟩)
    (left : root.keeps whole ⟨path, reversal⟩ = false → reversalAgain.leaves = reversal.leaves) :
    Repeats root path whole first candidate wholeAgain second candidateAgain := by
  refine ⟨?_, losses, ?_⟩
  · rw [before.single writes, after.single writesAgain, alike, result]
    cases kept : root.keeps whole ⟨path, reversal⟩ with
    | true => rfl
    | false => rw [left kept]
  · simp only [refusals, writes, writesAgain, List.flatMap_cons, List.flatMap_nil, alike,
      before.found, after.found, result]

end Place

theorem refusals_flatMap {α : Type} (root : Shape) (merged : Value) (parts : List α)
    (writes : α → List Write) : refusals root merged (parts.flatMap writes) =
      parts.flatMap fun part => refusals root merged (writes part) :=
  List.flatMap_assoc

/-- A part settles in one way only. -/
theorem Settles.eq {shape : Shape} {path : Path} {candidate part settled other otherSettled : Value}
    (first : Settles shape path candidate part settled)
    (second : Settles shape path candidate other otherSettled) : settled = otherSettled := by
  obtain rfl := Option.some.inj (first.stands.symm.trans second.stands)
  exact Option.some.inj (first.rebuilt.symm.trans second.rebuilt)

/-- What is merged into a leaf is merged into its blank alike. -/
theorem mergeInto_blank {rules : MergeRules} {there : Value} {path : Path}
    (scalar : there = .null ∨ there.scalarFits there = true) (given : Value) :
    mergeInto rules there.blank path given = mergeInto rules there path given := by
  -- The blank of a scalar is a scalar of the same kind.
  have scalarBlank : there.blank = .null ∨ there.blank.scalarFits there.blank = true := by
    rcases scalar with rfl | scalar
    · exact .inl rfl
    · cases there <;> simp_all [Value.scalarFits, Value.blank]
  rw [mergeInto_leaf _ _ scalarBlank, mergeInto_leaf _ _ scalar]
  rcases scalar with rfl | scalar
  · rfl
  · cases there with
    | null | array items | object fields => simp [Value.scalarFits] at scalar
    | number n => cases n <;> cases given <;> rfl
    | _ => cases given <;> rfl

/-- What is left by one merge is left by the next one, if the struct has the same names. -/
theorem leftField_leftField {fields others : Fields}
    (same : ∀ name, name ∈ fields.map (·.1) ↔ name ∈ others.map (·.1)) (given : Fields)
    (name : String) (old : Value) :
    leftField others given name (leftField fields given name old) =
      leftField fields given name old := by
  -- Filtered by the same names twice is filtered once.
  unfold leftField
  split
  · rw [mergedList_congr same]
    cases Keyed.get? name given with
    | none => rfl
    | some v => cases v <;> rfl
  · rfl

/-- A scalar has nothing that could be excluded. -/
theorem Exclusions.strip_of_scalarFits (exclusions : Exclusions) (path : Path) {there v : Value}
    (fits : there.scalarFits v = true) : exclusions.strip path v = v := by
  cases v with
  | array items | object fields => cases there <;> simp [Value.scalarFits] at fits
  | _ => rfl

/-- At a place of both candidates, whatever is merged into a part repeats if the part settles. -/
def RepeatsAt (exclusions : Exclusions) (root : Shape) (whole candidate wholeAgain
    candidateAgain : Value) (path : Path) (shape : Shape) : Prop :=
  ∀ {there given part settled : Value},
    Meets exclusions root shape path whole (root.keeps whole) candidate there given →
    Settles shape path candidate part settled →
    Meets exclusions root shape path wholeAgain (root.keeps wholeAgain) candidateAgain settled
      given →
    Repeats root path whole (mergeInto ⟨exclusions, []⟩ there path given) candidate wholeAgain
      (mergeInto ⟨exclusions, []⟩ settled path given) candidateAgain

namespace Meets

variable {exclusions : Exclusions} {root shape : Shape} {path : Path}
  {whole wholeAgain candidate candidateAgain there given part settled : Value}

/-- A leaf settles as its blank, or the source value was written to it and is kept. -/
theorem rests_or_kept
    (meets : Meets exclusions root shape path whole (root.keeps whole) candidate there given)
    (leaf : shape.isLeaf = true) (settles : Settles shape path candidate part settled) :
    settled = there.blank ∨ ∃ reversal,
      mergeInto ⟨exclusions, []⟩ there path given =
        ⟨exclusions.strip path given, .wrote path reversal⟩ ∧
      root.keeps whole ⟨path, reversal⟩ = true := by
  have merged :=
    mergeInto_leaf ⟨exclusions, []⟩ path (scalarFits_self_of_leaf leaf meets.again) given
  -- Whatever is written as a whole is kept, or is taken back and leaves the blank.
  have written : ∀ {old v : Value}, mergeInto ⟨exclusions, []⟩ there path given =
      ⟨v, .wrote path (.restore old)⟩ → v = exclusions.strip path given → old = there.blank →
      settled = there.blank ∨ ∃ reversal, mergeInto ⟨exclusions, []⟩ there path given =
        ⟨exclusions.strip path given, .wrote path reversal⟩ ∧
        root.keeps whole ⟨path, reversal⟩ = true := by
    rintro old v same rfl rfl
    cases kept : root.keeps whole ⟨path, .restore there.blank⟩ with
    | true => exact .inr ⟨_, same, kept⟩
    | false =>
      have stands := (same ▸ meets.place).single rfl
      rw [kept, if_neg Bool.false_ne_true] at stands
      exact .inl (settles.eq (meets.settles_blank stands))
  -- The cases are those of the merge: null given, null there, a scalar that fits, any other.
  rw [clearTo, mergeScalar] at merged
  split at merged
  · next nullGiven =>
    obtain rfl := Value.isNull_iff.1 nullGiven
    split at merged
    · next null =>
      obtain rfl := Value.isNull_iff.1 null
      exact .inl (settles.eq (meets.settles_blank ((merged ▸ meets.place).silent rfl)))
    · exact written merged rfl rfl
  · split at merged
    · next null =>
      obtain rfl := Value.isNull_iff.1 null
      exact written merged rfl rfl
    · split at merged
      · next fits =>
        exact written merged (exclusions.strip_of_scalarFits path fits).symm rfl
      · exact .inl (settles.eq (meets.settles_blank ((merged ▸ meets.place).silent rfl)))

/-- What was written to a leaf and kept is silent or written and kept once more. -/
theorem repeats_kept
    (before : Meets exclusions root shape path whole (root.keeps whole) candidate there given)
    (leaf : shape.isLeaf = true) (settles : Settles shape path candidate part settled)
    (after : Meets exclusions root shape path wholeAgain (root.keeps wholeAgain) candidateAgain
      settled given) {reversal : Reversal}
    (same : mergeInto ⟨exclusions, []⟩ there path given =
      ⟨exclusions.strip path given, .wrote path reversal⟩)
    (kept : root.keeps whole ⟨path, reversal⟩ = true) :
    Repeats root path whole (mergeInto ⟨exclusions, []⟩ there path given) candidate wholeAgain
      (mergeInto ⟨exclusions, []⟩ settled path given) candidateAgain := by
  have place := before.place
  have placeAgain := after.place
  rw [same] at place ⊢
  have stands := place.single rfl
  rw [kept, if_pos rfl] at stands
  obtain rfl := Option.some.inj (settles.stands.symm.trans stands)
  rcases (rebuild_leaf leaf settles.rebuilt).2 with ⟨null, rfl⟩ | fits
  · -- Null stands already.
    obtain rfl : given = .null := by cases given <;> simp_all [Exclusions.strip]
    have silent : mergeInto ⟨exclusions, []⟩ .null path .null = ⟨.null, .empty⟩ := rfl
    rw [silent] at placeAgain ⊢
    refine ⟨by rw [stands, placeAgain.silent rfl, null], rfl, ?_⟩
    simp [refusals, Journal.wrote, Journal.empty, kept]
  · -- A scalar that was taken fits what it settled as, and is taken again.
    have unstripped : exclusions.strip path given = given := by
      cases given with
      | array items | object fields =>
        cases settled <;> simp [Exclusions.strip, Value.scalarFits] at fits
      | _ => rfl
    rw [mergeInto_of_scalarFits _ _ (unstripped ▸ fits)] at placeAgain ⊢
    refine repeats_single place placeAgain rfl rfl unstripped.symm rfl ?_ fun refused => ?_
    · rw [place.keeps_single before.asks, placeAgain.keeps_single after.asks, unstripped]
    · rw [kept] at refused
      simp at refused

/-- A leaf repeats. -/
theorem repeats_leaf
    (before : Meets exclusions root shape path whole (root.keeps whole) candidate there given)
    (leaf : shape.isLeaf = true) (settles : Settles shape path candidate part settled)
    (after : Meets exclusions root shape path wholeAgain (root.keeps wholeAgain) candidateAgain
      settled given) :
    Repeats root path whole (mergeInto ⟨exclusions, []⟩ there path given) candidate wholeAgain
      (mergeInto ⟨exclusions, []⟩ settled path given) candidateAgain := by
  rcases before.rests_or_kept leaf settles with rfl | ⟨reversal, same, kept⟩
  · -- What is merged into the blank is merged as before.
    have scalar := scalarFits_self_of_leaf leaf before.again
    have place := before.place
    have placeAgain := after.place
    rw [mergeInto_blank scalar] at placeAgain ⊢
    rcases (journal_mergeInto_leaf _ _ scalar given).1 with silent | ⟨old, writes⟩
    · exact repeats_silent place placeAgain silent silent rfl rfl
    · exact repeats_single place placeAgain writes writes rfl rfl
        (by rw [place.keeps_single before.asks, placeAgain.keeps_single after.asks])
        fun _ => rfl
  · exact before.repeats_kept leaf settles after same kept

section Record

variable {rule : RecordRule} {declared : List (FieldRule × Shape)} {fields again given : Fields}
  (before : Meets exclusions root (.record rule declared) path whole (root.keeps whole) candidate
    (.object fields) (.object given))
  (after : Meets exclusions root (.record rule declared) path wholeAgain (root.keeps wholeAgain)
    candidateAgain (.object again) (.object given))

include before after

/-- What is taken of the source repeats if it does in the declared fields. -/
theorem repeats_taken
    (settled : ∀ field ∈ declared, ∃ part v, Keyed.get? field.1.name again = some v ∧
      Settles field.2 (path.field field.1.name) candidate part v)
    (each : ∀ field ∈ declared, RepeatsAt exclusions root whole candidate wholeAgain
      candidateAgain (path.field field.1.name) field.2) :
    ∀ entry ∈ takenFields ⟨exclusions, []⟩ path given,
      Repeats root (path.field entry.1) whole
        (mergeField ⟨exclusions, []⟩ path (Keyed.get? entry.1 fields) entry.1 entry.2) candidate
        wholeAgain
        (mergeField ⟨exclusions, []⟩ path (Keyed.get? entry.1 again) entry.1 entry.2)
        candidateAgain := by
  intro entry taken
  obtain ⟨name, v⟩ := entry
  -- A declared name meets a field in both structs, and any other name in none.
  by_cases known : name ∈ names declared
  · obtain ⟨field, member, rfl⟩ := List.mem_map.1 known
    obtain ⟨old, held, _⟩ := before.rebuilds.get? before.writesAll member
    obtain ⟨part, w, heldAgain, settles⟩ := settled field member
    simp only [held, heldAgain, mergeField]
    exact each field member (before.field member held taken) settles
      (after.field member heldAgain taken)
  · -- The record decides about an unknown name, whatever stands under it.
    have listed := Keyed.get?_of_mem (takenFields_nodup _ _ before.formed.distinct) taken
    have place := before.undeclared known listed
    have placeAgain := after.undeclared known listed
    simp only [before.rebuilds.declared name known, after.rebuilds.declared name known]
    refine repeats_single place placeAgain rfl rfl rfl rfl ?_ fun _ => rfl
    rw [before.keeps_undeclared known place.found, after.keeps_undeclared known placeAgain.found]

/-- The fields of a struct stand as before if those that are taken from the source do. -/
theorem stands_again
    (settled : ∀ field ∈ declared, ∃ part v, Keyed.get? field.1.name again = some v ∧
      Settles field.2 (path.field field.1.name) candidate part v)
    (repeats : ∀ entry ∈ takenFields ⟨exclusions, []⟩ path given,
      candidateAgain.at? (path.field entry.1) = candidate.at? (path.field entry.1))
    (name : String) :
    candidateAgain.at? (path.field name) = candidate.at? (path.field name) := by
  -- What is not taken is left as it is, or is a list of names that is merged again.
  cases taken : Keyed.get? name (takenFields ⟨exclusions, []⟩ path given) with
  | some v => exact repeats (name, v) (Keyed.mem_of_get? taken)
  | none =>
    by_cases known : name ∈ names declared
    · obtain ⟨field, member, rfl⟩ := List.mem_map.1 known
      obtain ⟨old, held, _⟩ := before.rebuilds.get? before.writesAll member
      obtain ⟨part, w, heldAgain, settles⟩ := settled field member
      have first := before.settles_untaken member held taken
      obtain rfl := settles.eq first
      -- Both structs have the declared names, so the same names are known to both.
      rw [(after.settles_untaken member heldAgain taken).stands, first.stands,
        leftField_leftField fun name => by
          rw [before.rebuilds.mem_names before.writesAll, after.rebuilds.mem_names after.writesAll]]
    · rw [before.at?_undeclared known, after.at?_undeclared known, taken]
      rfl

/-- A struct repeats if the declared fields do that are taken from the source. -/
theorem repeats_object
    (settles : Settles (.record rule declared) path candidate part (.object again))
    (each : ∀ field ∈ declared, RepeatsAt exclusions root whole candidate wholeAgain
      candidateAgain (path.field field.1.name) field.2) :
    Repeats root path whole (mergeInto ⟨exclusions, []⟩ (.object fields) path (.object given))
      candidate wholeAgain (mergeInto ⟨exclusions, []⟩ (.object again) path (.object given))
      candidateAgain := by
  -- In both candidates an object stands here, and the first one settles as the destination.
  obtain ⟨kept, _, settlesObject, settled⟩ := before.settles_object
    (before.settles_fields fun _ _ _ _ part => part.settles)
  obtain rfl := Value.object.inj (settles.eq settlesObject)
  obtain ⟨keptAgain, _, settlesAgain, _⟩ := after.settles_object
    (after.settles_fields fun _ _ _ _ part => part.settles)
  have taken := before.repeats_taken after settled each
  -- Objects with ascending names are equal if they hold the same under each name.
  have same : keptAgain = kept := by
    refine (Value.wellFormed_object.1 (after.place.wellFormed.at? settlesAgain.stands)).1.ext
      (Value.wellFormed_object.1 (before.place.wellFormed.at? settlesObject.stands)).1
      fun name => ?_
    rw [← at?_field settlesAgain.stands, ← at?_field settlesObject.stands]
    exact before.stands_again after settled (fun entry member => (taken entry member).stands) name
  rw [before.mergeInto_eq, after.mergeInto_eq]
  refine ⟨by rw [settlesAgain.stands, settlesObject.stands, same], ?_, ?_⟩
  · simp only [Merged.map, journal_mergeObjects _ _ before.formed.distinct, Journal.losses_all,
      List.flatMap_map]
    exact congrArg List.flatten
      (List.map_congr_left fun entry member => (taken entry member).losses)
  · simp only [Merged.map, Place.writes_mergeObjects before.formed, refusals_flatMap]
    exact congrArg List.flatten
      (List.map_congr_left fun entry member => (taken entry member).refusals)

end Record

/-- A value that is no struct is lost once more, and the struct is reset already. -/
theorem repeats_rejected {rule : RecordRule} {declared : List (FieldRule × Shape)}
    {fields again : Fields}
    (before : Meets exclusions root (.record rule declared) path whole (root.keeps whole) candidate
      (.object fields) given)
    (settles : Settles (.record rule declared) path candidate part (.object again))
    (after : Meets exclusions root (.record rule declared) path wholeAgain (root.keeps wholeAgain)
      candidateAgain (.object again) given)
    (filled : given.isNull = false) (other : given.isObject = false) :
    Repeats root path whole (mergeInto ⟨exclusions, []⟩ (.object fields) path given) candidate
      wholeAgain (mergeInto ⟨exclusions, []⟩ (.object again) path given) candidateAgain := by
  have reset := settles.eq (before.settles_blank (before.rejected filled other))
  have place := before.place
  have placeAgain := after.place
  rw [mergeInto_object filled other] at place placeAgain ⊢
  rw [mergeInto_object filled other]
  refine repeats_silent place placeAgain rfl rfl ?_ rfl
  simp only [rejectAt, reset, Value.blank_blank]

end Meets

/--
What is merged into a value of fixed structure repeats.

The induction follows the shape: a leaf is decided as a whole, and a record field by field.
-/
theorem repeatsAt {exclusions : Exclusions} {root shape : Shape}
    {whole candidate wholeAgain candidateAgain : Value} {path : Path} :
    RepeatsAt exclusions root whole candidate wholeAgain candidateAgain path shape := by
  induction shape using Shape.inductionOn generalizing path with
  | record rule declared ih =>
    intro there given part settled before settles after
    obtain ⟨fields, rfl, _⟩ := rebuilds_of_isFixed before.fixed before.again
    obtain ⟨again, rfl, _⟩ := rebuilds_of_isFixed before.fixed settles.again
    cases given with
    | null =>
      -- Clearing a record is refused, so it was reset, and is reset again.
      have reset := settles.eq (before.settles_blank before.cleared)
      have place := mergeInto_clears ▸ before.place
      have placeAgain := mergeInto_clears ▸ after.place
      rw [mergeInto_clears, mergeInto_clears]
      exact repeats_single place placeAgain rfl rfl rfl rfl
        (by rw [place.keeps_single before.asks, placeAgain.keeps_single after.asks])
        fun _ => by rw [reset, Value.blank_blank]
    | object given => exact before.repeats_object after settles fun field member => ih field member
    | _ => exact before.repeats_rejected settles after rfl rfl
  | bool | string | integer low high | float | optional shape =>
    intro there given part settled before settles after
    exact before.repeats_leaf (by simpa [isRecord] using before.kind) settles after
  | _ =>
    intro there given part settled before
    have kind := before.kind
    simp [isLeaf, isPlain, isRecord] at kind

end Triversion
