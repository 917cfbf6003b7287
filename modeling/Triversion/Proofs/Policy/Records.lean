import Triversion.Policy.Absence
import Triversion.Policy.Contract
import Triversion.Proofs.Compute.Record
import Triversion.Proofs.Transfer.Merge

/-!
Records under a policy.

Recording absences rewrites the bookkeeping lists of a record and nothing else, and naming a record
rewrites its name and nothing else.
-/

namespace Triversion

namespace Policy

/-- There is nothing to record inside texts. -/
theorem recordInItems_strings (policy : Policy) (path : Path) (names : List String) (i : Nat) :
    policy.recordInItems path i (names.map .string) = names.map .string := by
  induction names generalizing i with
  | nil => rfl
  | cons name rest ih =>
    rw [List.map_cons, recordInItems, ih, recordIn]

/-- Fields are recorded one by one, each under its own name. -/
theorem recordInFields_eq (policy : Policy) (path : Path) (fields : Fields) :
    policy.recordInFields path fields = fields.map fun entry =>
      (entry.1,
        if isBookkeeping entry.1 || policy.roleAt (path.field entry.1) = .system then entry.2
        else policy.recordIn (path.field entry.1) entry.2) := by
  induction fields with
  | nil => rfl
  | cons entry rest ih =>
    obtain ⟨name, v⟩ := entry
    rw [recordInFields, ih, List.map_cons]

/-- There is nothing to record inside the value of any field of a record. -/
theorem recordIn_of_holds {sort : FieldSort} {v : Value} (holds : sort.Holds v) (policy : Policy)
    (path : Path) : policy.recordIn path v = v := by
  cases sort with
  | text =>
    obtain ⟨s, rfl⟩ := holds
    rfl
  | flag =>
    obtain ⟨b, rfl⟩ := holds
    rfl
  | texts =>
    obtain ⟨names, rfl⟩ := holds
    exact congrArg Value.array (recordInItems_strings policy path names 0)
  | labels =>
    obtain ⟨labels, rfl⟩ := holds
    -- A label that is called like a bookkeeping list is still a text.
    have untracked : isTracked (labels.entries.map fun entry => (entry.1, .string entry.2)) =
        false := by
      have texts : ∀ name, (Keyed.get? name
          (labels.entries.map fun entry => (entry.1, Value.string entry.2))).any Value.isArray =
            false := by
        intro name
        rw [Keyed.get?_map fun _ text => Value.string text]
        cases Keyed.get? name labels.entries <;> rfl
      simp [isTracked, texts]
    simp [Labels.toValue, recordIn, untracked, recordInFields_eq]

/-- Storing the lists leaves all other fields alone. -/
theorem AbsenceLists.get?_store {name : String} (ordinary : isBookkeeping name = false)
    (lists : AbsenceLists) (fields : Fields) :
    Keyed.get? name (lists.store fields) = Keyed.get? name fields := by
  obtain ⟨notNulls, notForced⟩ := isBookkeeping_eq_false ordinary
  rw [store, Keyed.get?_put_of_ne notForced, Keyed.get?_put_of_ne notNulls]

/-- Stored lists are lists of texts. -/
theorem AbsenceLists.fits_store {sorts : Sorts} {fields : Fields} (fits : Fits sorts fields)
    (texts : ∀ list ∈ bookkeepingLists, Keyed.get? list sorts = some .texts)
    (lists : AbsenceLists) : Fits sorts (lists.store fields) := by
  have nulls := texts nullFields nullFields_mem
  have forced := texts forceSendFields forceSendFields_mem
  refine (fits.put nulls ⟨lists.nulls, rfl⟩).put forced ⟨lists.forced, rfl⟩

/-- Recording absences in a record leaves every ordinary field as it was. -/
theorem fieldAt_recordAbsences {α : Type} {codec : Codec α} {sorts : Sorts}
    (record : codec.IsRecord sorts)
    (texts : ∀ list ∈ bookkeepingLists, Keyed.get? list sorts = some .texts) (policy : Policy)
    {x filled : α} (recorded : policy.recordAbsences codec x = .ok filled) {name : String}
    (ordinary : isBookkeeping name = false) :
    codec.fieldAt name filled = codec.fieldAt name x := by
  -- What is inside the fields stays, so the record is written with other lists at most.
  have inside : policy.recordInFields Path.root (codec.fields x) = codec.fields x := by
    rw [recordInFields_eq]
    refine (List.map_congr_left fun entry member => ?_).trans (List.map_id _)
    obtain ⟨sort, _, holds⟩ := record.holds_of_fieldAt
      (Keyed.get?_of_mem (record.ascending x).nodup member)
    simp [recordIn_of_holds holds]
  have stays : ∃ fields, policy.recordIn Path.root (.object (codec.fields x)) = .object fields ∧
      Fits sorts fields ∧ Keyed.get? name fields = codec.fieldAt name x := by
    rw [recordIn, inside]
    split
    · exact ⟨_, rfl, AbsenceLists.fits_store (record.fits x) texts _,
        AbsenceLists.get?_store ordinary _ _⟩
    · exact ⟨_, rfl, record.fits x, rfl⟩
  -- The rebuilt record takes every declared field, and other fields it has none.
  obtain ⟨fields, filledIn, fits, kept⟩ := stays
  obtain ⟨y, taken, settled⟩ := record.rebuilds fields fits
  simp only [recordAbsences, Codec.write, record.encode, filledIn, Codec.rebuild, taken,
    Except.ok.injEq] at recorded
  subst recorded
  cases declared : Keyed.get? name sorts with
  | none => rw [record.undeclared y name declared, record.undeclared x name declared]
  | some sort => rw [settled name (by simp [declared]), kept]

end Policy

/-- Naming a record sets its name and leaves every other field as it was. -/
theorem Codec.IsRecord.fieldAt_withName {α : Type} {codec : Codec α} {sorts : Sorts}
    (record : codec.IsRecord sorts) (called : Keyed.get? nameField sorts = some .text)
    {id : String} {x named : α} (done : codec.withName id x = .ok named) (name : String) :
    codec.fieldAt name named =
      if name = nameField then some (.string id) else codec.fieldAt name x := by
  -- The name is a text like the one it replaces, so the rebuild accepts it.
  obtain ⟨_, found, old, rfl⟩ := record.fits x nameField .text called
  obtain ⟨y, taken, settled⟩ := record.rebuilds _ ((record.fits x).put called ⟨id, rfl⟩)
  simp only [Codec.withName, Codec.write, record.encode, found, Codec.rebuild, taken,
    Except.ok.injEq] at done
  subst done
  cases declared : Keyed.get? name sorts with
  | none =>
    have other : name ≠ nameField := by
      intro same
      subst same
      simp [called] at declared
    rw [if_neg other, record.undeclared y name declared, record.undeclared x name declared]
  | some sort =>
    rw [settled name (by simp [declared])]
    split
    · next same => rw [same, Keyed.get?_put_self]
    · next other => exact Keyed.get?_put_of_ne (Ne.symm other) _ _

end Triversion
