import Triversion.Proofs.Transfer.Scalars
import Triversion.Transfer.Copy

/-! What is reported of a candidate that its rebuild did not keep. -/

namespace Triversion

/-- The route of an entry of an object, which is a key in a map and a field elsewhere. -/
def entryStep (isMap : Bool) (name : String) : Segment :=
  if isMap then .key name else .field name

theorem name?_entryStep (isMap : Bool) (name : String) :
    (entryStep isMap name).name? = some name := by
  cases isMap <;> rfl

/-- What is reported of an object is reported of its ordinary entries, one after another. -/
theorem forgottenInFields_eq (maps : List Path) (isMap : Bool) (kept : Fields) (path : Path)
    (fields : Fields) :
    forgottenInFields maps isMap kept path fields = fields.flatMap fun entry =>
      if isBookkeeping entry.1 then []
      else
        match Keyed.get? entry.1 kept with
        | some settled => forgotten maps settled (path ++ [entryStep isMap entry.1]) entry.2
        | none => lossOf (path ++ [entryStep isMap entry.1]) entry.2 := by
  induction fields with
  | nil => rfl
  | cons entry rest ih =>
    obtain ⟨name, v⟩ := entry
    rw [forgottenInFields, ih, List.flatMap_cons]
    cases isMap <;> rfl

/-- Every ordinary entry of a candidate is looked at. -/
theorem forgottenInFields_of_mem (maps : List Path) (isMap : Bool) (kept : Fields) (path : Path)
    {fields : Fields} {name : String} {v : Value} (listed : (name, v) ∈ fields)
    (ordinary : isBookkeeping name = false) :
    (match Keyed.get? name kept with
      | some settled => forgotten maps settled (path ++ [entryStep isMap name]) v
      | none => lossOf (path ++ [entryStep isMap name]) v) ⊆
      forgottenInFields maps isMap kept path fields := by
  intro loss lost
  rw [forgottenInFields_eq]
  exact List.mem_flatMap.2 ⟨_, listed, by rw [ordinary, if_neg Bool.false_ne_true]; exact lost⟩

/-- Whatever is reported of an object is reported of one of its ordinary entries. -/
theorem mem_forgottenInFields {maps : List Path} {isMap : Bool} {kept : Fields} {path : Path}
    {fields : Fields} {loss : Loss}
    (reported : loss ∈ forgottenInFields maps isMap kept path fields) :
    ∃ entry ∈ fields, isBookkeeping entry.1 = false ∧ loss ∈
      match Keyed.get? entry.1 kept with
      | some settled => forgotten maps settled (path ++ [entryStep isMap entry.1]) entry.2
      | none => lossOf (path ++ [entryStep isMap entry.1]) entry.2 := by
  rw [forgottenInFields_eq] at reported
  obtain ⟨entry, listed, lost⟩ := List.mem_flatMap.1 reported
  cases ordinary : isBookkeeping entry.1 with
  | true => simp [ordinary] at lost
  | false =>
    rw [ordinary, if_neg Bool.false_ne_true] at lost
    exact ⟨entry, listed, ordinary, lost⟩

/-- Whatever is reported of a sequence is reported of one of the items that both sequences have. -/
theorem mem_forgottenInItems {maps : List Path} {kept : List Value} {path : Path} {start : Nat}
    {items : List Value} {loss : Loss}
    (reported : loss ∈ forgottenInItems maps kept path start items) :
    ∃ i item settled, items[i]? = some item ∧ kept[i]? = some settled ∧
      loss ∈ forgotten maps settled (path.index (start + i)) item := by
  induction items generalizing kept start with
  | nil => simp [forgottenInItems] at reported
  | cons item rest ih =>
    cases kept with
    | nil => simp [forgottenInItems] at reported
    | cons settled others =>
      rw [forgottenInItems, List.mem_append] at reported
      rcases reported with here | later
      · exact ⟨0, item, settled, rfl, rfl, here⟩
      · -- The position counts on from the items before.
        obtain ⟨i, item, settled, found, stands, inside⟩ := ih later
        refine ⟨i + 1, item, settled, found, stands, ?_⟩
        rwa [Nat.add_comm i, ← Nat.add_assoc]

/-- A candidate that is kept as it is has nothing forgotten. -/
theorem forgotten_self (maps : List Path) (path : Path) {v : Value} (formed : v.WellFormed) :
    forgotten maps v path v = [] := by
  refine List.eq_nil_iff_forall_not_mem.2 fun loss reported => ?_
  induction v using Value.inductionOn generalizing path with
  | array items ih =>
    obtain ⟨i, item, settled, found, stands, inside⟩ := mem_forgottenInItems reported
    obtain rfl := Option.some.inj (found.symm.trans stands)
    have member := List.mem_of_getElem? found
    exact ih item member _ (Value.wellFormed_array.1 formed item member) inside
  | object fields ih =>
    obtain ⟨entry, member, _, inside⟩ := mem_forgottenInFields reported
    rw [Keyed.get?_of_mem formed.distinct member] at inside
    exact ih entry member _ ((Value.wellFormed_object.1 formed).2 entry member) inside
  | _ => simp [forgotten] at reported

namespace Value.Lacks

variable {v : Value} {names : List String}

/-- Nothing is lacking at the root. -/
theorem not_nil : ¬ v.Lacks [] := by
  intro lacks
  obtain ⟨before, _, _, _, split, _⟩ := lacks
  simp at split

/-- An object lacks a route if it lacks its first name, or the part under that lacks the rest. -/
theorem cases {name : String} (lacks : v.Lacks (name :: names)) :
    ∃ fields, v = .object fields ∧
      (Keyed.get? name fields = none ∨
        ∃ part, Keyed.get? name fields = some part ∧ part.Lacks names) := by
  obtain ⟨before, missing, after, fields, split, leads, absent⟩ := lacks
  cases before with
  | nil =>
    -- The object at the root is the one that lacks a name.
    obtain ⟨rfl, rfl⟩ := List.cons.inj split
    exact ⟨fields, Option.some.inj leads, .inl absent⟩
  | cons first before =>
    obtain ⟨rfl, rfl⟩ := List.cons.inj split
    cases v with
    | object outer =>
      obtain ⟨part, found, later⟩ := Option.bind_eq_some_iff.1 leads
      refine ⟨outer, rfl, .inr ⟨part, found, ?_⟩⟩
      exact ⟨before, missing, after, fields, rfl, later, absent⟩
    | _ => simp [under?] at leads

end Value.Lacks

/-- A scalar of a candidate whose route the rebuilt value lacks is reported. -/
theorem forgotten_of_lacks (maps : List Path) (path : Path) {candidate settled scalar : Value}
    {names : List String} (ordinary : ∀ name ∈ names, isBookkeeping name = false)
    (has : candidate.HasScalar names scalar) (lacks : settled.Lacks names) :
    ∃ loss ∈ forgotten maps settled path candidate, path.Reaches loss.path names := by
  -- The names are followed in both values, up to the first one that the rebuilt value lacks.
  induction names generalizing candidate settled path with
  | nil => exact absurd lacks Value.Lacks.not_nil
  | cons name rest ih =>
    obtain ⟨ordinaryName, ordinary⟩ := List.forall_mem_cons.1 ordinary
    obtain ⟨kept, rfl, absent⟩ := lacks.cases
    obtain ⟨none, _⟩ | ⟨fields, _, _, part, rfl, same, found, inside⟩ := has.cases
    · simp at none
    obtain ⟨rfl, rfl⟩ := List.cons.inj same
    have looked := forgottenInFields_of_mem maps (isMapAt maps path) kept path
      (Keyed.mem_of_get? found) ordinaryName
    have named := name?_entryStep (isMapAt maps path) name
    rcases absent with gone | ⟨settled, present, lacks⟩
    · -- The part is gone as a whole, with the scalar in it.
      refine ⟨⟨path ++ [entryStep (isMapAt maps path) name], part⟩, looked ?_,
        (Path.Reaches.refl _ rest).step named⟩
      simp [gone, lossOf, inside.not_blank]
    · -- The part is still there, so the scalar must be missing further inside.
      obtain ⟨loss, listed, reaches⟩ :=
        ih (path ++ [entryStep (isMapAt maps path) name]) ordinary inside lacks
      refine ⟨loss, looked ?_, reaches.step named⟩
      simpa only [present] using listed

end Triversion
