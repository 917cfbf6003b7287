import Triversion.Proofs.Transfer.Drawn
import Triversion.Proofs.Transfer.Origin

/-!
What the writes of a merge tell of the merged struct.

They lead to parts of it that do not overlap. Taking all of them back touches nothing beside these
parts, and making them again gives the merged struct as it was.
-/

namespace Triversion

namespace Value

/-- What has changed in an object under one name alone is put back by setting it. -/
theorem setStep_object {segment : Segment} {fields : Fields} {part : Value}
    (formed : (Value.object fields).WellFormed)
    (found : (Value.object fields).step? segment = some part) {change : String → Fields}
    (sorted : ∀ name, Keyed.Ascending (change name))
    (others : ∀ name other, name ≠ other →
      Keyed.get? other (change name) = Keyed.get? other fields) :
    setStep segment part
      (match segment.name? with
        | some name => .object (change name)
        | none => .object fields) = .object fields := by
  rw [step?_object] at found
  obtain ⟨name, named, held⟩ := Option.bind_eq_some_iff.1 found
  simp only [setStep, named]
  exact congrArg Value.object
    (Keyed.put_eq_of_agree (wellFormed_object.1 formed).1 held (sorted name) (others name))

/-- Setting an item to what it is leaves the sequence as it is. -/
theorem setStep_array {segment : Segment} {items : List Value} {part : Value}
    (found : (Value.array items).step? segment = some part) :
    setStep segment part (.array items) = .array items := by
  cases segment with
  | index i =>
    obtain ⟨within, stands⟩ := List.getElem?_eq_some_iff.1 found
    simp only [setStep, ← stands, List.set_getElem_self]
  | _ => rfl

/-- A part that was set to something else can be set back. -/
theorem setStep_setStep {segment : Segment} {v part : Value} (formed : v.WellFormed)
    (found : v.step? segment = some part) (other : Value) :
    setStep segment part (setStep segment other v) = v := by
  cases v with
  | array items =>
    cases segment with
    | index i =>
      -- The second setting covers the first one, and sets what was there before.
      have same := setStep_array found
      simp only [setStep, List.set_set] at same ⊢
      exact same
    | _ => rfl
  | object fields =>
    exact setStep_object formed found (fun _ => Keyed.ascending_put (wellFormed_object.1 formed).1)
      fun _ _ different => Keyed.get?_put_of_ne different other fields
  | _ => rfl

/-- An entry that was removed can be set back. -/
theorem setStep_eraseStep {segment : Segment} {v part : Value} (formed : v.WellFormed)
    (found : v.step? segment = some part) : setStep segment part (eraseStep segment v) = v := by
  cases v with
  -- Nothing is removed from a sequence.
  | array items => exact setStep_array found
  | object fields =>
    exact setStep_object formed found
      (fun name => Keyed.ascending_erase name (wellFormed_object.1 formed).1)
      fun _ _ different => Keyed.get?_erase_of_ne different fields
  | _ => rfl

/-- What is undone at the end of a route can be set back if it can behind a single step. -/
theorem setAt_of_undone (undo : Path → Value → Value)
    (single : ∀ segment v part, v.WellFormed → v.step? segment = some part →
      setStep segment part (undo [segment] v) = v)
    (onward : ∀ segment next rest v,
      undo (segment :: next :: rest) v = modifyStep segment (undo (next :: rest)) v)
    {path : Path} {v part : Value} (formed : v.WellFormed) (found : v.at? path = some part) :
    setAt path part (undo path v) = v := by
  induction path generalizing v with
  | nil => exact (Option.some.inj found).symm
  | cons segment rest ih =>
    obtain ⟨inner, first, later⟩ := Option.bind_eq_some_iff.1 found
    cases rest with
    | nil =>
      obtain rfl := Option.some.inj later
      exact single segment v _ formed first
    | cons next rest =>
      -- Behind the first step the undone part is set back to what it was.
      have keeps : ∀ other, v.step? segment = some other →
          (setAt (next :: rest) part ∘ undo (next :: rest)) other = id other := by
        intro other leads
        obtain rfl := Option.some.inj (first.symm.trans leads)
        exact ih (formed.step? first) later
      rw [onward]
      change modifyStep segment (setAt (next :: rest) part) (modifyStep segment _ v) = v
      rw [modifyStep_modifyStep, modifyStep_congr keeps, modifyStep_id]

end Value

/-- A write that is taken back and made again leaves what stood there before. -/
theorem Write.setAt_takeBack (write : Write) {v part : Value} (formed : v.WellFormed)
    (found : v.at? write.path = some part) :
    Value.setAt write.path part (write.takeBack v) = v := by
  -- Three of the four ways set something else, and one removes.
  have sets : ∀ other, Value.setAt write.path part (Value.setAt write.path other v) = v :=
    fun other => Value.setAt_of_undone (fun path => Value.setAt path other)
      (fun _ _ _ formed found => Value.setStep_setStep formed found other)
      (fun _ _ _ _ => rfl) formed found
  unfold takeBack
  split
  · exact sets _
  · exact Value.setAt_of_undone Value.eraseAt (fun _ _ _ => Value.setStep_eraseStep)
      (fun _ _ _ _ => rfl) formed found
  · exact sets _
  · exact sets _

/-- Writes that are all taken back and all made again leave the merged value as it was. -/
theorem redoAll_takeBackAll {writes : List Write} {merged : Value} (formed : merged.WellFormed)
    (apart : Write.AllApart writes) (found : ∀ write ∈ writes, ∃ v, merged.at? write.path = some v)
    (restores : ∀ write ∈ writes, ∀ v, write.reversal = .restore v → v.WellFormed) :
    redoAll merged writes (takeBackAll writes merged) = merged := by
  induction writes with
  | nil => rfl
  | cons first rest ih =>
    obtain ⟨apartFirst, apart⟩ := List.pairwise_cons.1 apart
    obtain ⟨⟨v, merges⟩, found⟩ := List.forall_mem_cons.1 found
    obtain ⟨_, restores⟩ := List.forall_mem_cons.1 restores
    -- The first write is the last to be taken back and the first to be made again.
    have kept := (sameOutside_takeBackAll rest merged first.path
      (List.forall_mem_map.2 fun write listed => (apartFirst write listed).symm)).1
    have again : Write.redoOne merged (takeBackAll (first :: rest) merged) first =
        takeBackAll rest merged := by
      rw [redoOne_of_found merges]
      exact first.setAt_takeBack (wellFormed_takeBackAll formed restores) (kept.trans merges)
    change redoAll merged rest (Write.redoOne merged (takeBackAll (first :: rest) merged) first) = _
    rw [again]
    exact ih apart found restores

/--
The writes that a merge of two structs records are exact.

Read as names and positions their routes never pass through one another, and each leads to a part
of the merged struct. Taken back, each leaves what it says, and nothing changes at a route that is
neither above, at nor below one of theirs. Made again in order, they give the merged struct.
-/
theorem write_log_is_exact (rules : MergeRules) {fields given : Fields}
    (formedThere : (Value.object fields).WellFormed) (formed : (Value.object given).WellFormed) :
    let merged := mergeObjects rules Path.root fields given
    let whole := Value.object merged.result
    let writes := merged.journal.writes
    (writes.Pairwise fun first second =>
      ¬ first.path.Covers second.path ∧ ¬ second.path.Covers first.path) ∧
    (∀ write ∈ writes, ∃ part, whole.at? write.path = some part) ∧
    (∀ write ∈ writes, (takeBackAll writes whole).at? write.path = write.reversal.leaves) ∧
    redoAll whole writes (takeBackAll writes whole) = whole ∧
    ∀ route, (∀ write ∈ writes, ¬ write.path.Covers route ∧ ¬ route.Covers write.path) →
      (takeBackAll writes whole).at? route = whole.at? route := by
  have sound := sound_mergeStructs rules Path.root formedThere formed
  refine ⟨sound.apart.imp Path.apart_iff.1, sound.found, ?_, ?_, fun route beside => ?_⟩
  · exact at?_takeBackAll sound.wellFormed sound.apart sound.found sound.restores
      (removesField_mergeObjects formedThere formed)
  · exact redoAll_takeBackAll sound.wellFormed sound.apart sound.found sound.restores
  · refine (sameOutside_takeBackAll _ _ route fun path member => ?_).1
    obtain ⟨write, written, rfl⟩ := List.mem_map.1 member
    exact Path.apart_iff.2 (beside write written)

/-- A struct of the destination with an empty map and sequence, and a filled sequence of structs. -/
def openFields : Fields :=
  [("Count", .null), ("Labels", .object []), ("Ports", .array []),
    ("Rules", .array [.object [("Port", .whole 1)]]), ("Size", .whole 4)]

/-- A struct of the source that fills all of it, and has a field of its own. -/
def fillingFields : Fields :=
  [("Count", .whole 2), ("Labels", .object [("env", .string "prod")]), ("New", .bool true),
    ("Ports", .array [.whole 80]),
    ("Rules", .array [.object [("Port", .whole 7)], .object [("Port", .string "x")]]),
    ("Size", .null)]

/-- All four ways of taking back occur, one of them inside a sequence; a loss is no write. -/
theorem write_log_is_exact_of_open_fields :
    (Value.object openFields).WellFormed ∧ (Value.object fillingFields).WellFormed ∧
      let merged := mergeObjects ⟨.none, []⟩ Path.root openFields fillingFields
      let whole := Value.object merged.result
      let writes := merged.journal.writes
      writes = [⟨[.field "Count"], .restore .null⟩, ⟨[.field "Labels"], .emptyMap⟩,
        ⟨[.field "New"], .remove⟩, ⟨[.field "Ports"], .emptySequence⟩,
        ⟨[.field "Rules", .index 0, .field "Port"], .restore (.whole 0)⟩,
        ⟨[.field "Size"], .restore (.whole 0)⟩] ∧
      takeBackAll writes whole = .object [("Count", .null), ("Labels", .object []),
        ("Ports", .array []),
        ("Rules", .array [.object [("Port", .whole 0)], .object [("Port", .whole 0)]]),
        ("Size", .whole 0)] ∧
      redoAll whole writes (takeBackAll writes whole) = whole := by
  have formedThere : (Value.object openFields).WellFormed := by decide
  have formed : (Value.object fillingFields).WellFormed := by decide
  obtain ⟨_, _, _, again, _⟩ := write_log_is_exact ⟨.none, []⟩ formedThere formed
  exact ⟨formedThere, formed, by decide +kernel, by decide +kernel, again⟩

end Triversion
