import Triversion.Proofs.Policy.Audit

/-!
The policy check after recording.

A struct without information is no longer without information once its own lists name something.
The rules for the field that holds it may then be broken, and no others can be.
-/

namespace Triversion.Policy

variable {policy : Policy} {version : Version} {path : Path} {fields : Fields} {name : String}
  {v : Value}

/-- Somewhere inside, a struct that keeps both lists has a field that belongs in one of them. -/
def HasAbsence (policy : Policy) (path : Path) (v : Value) : Prop :=
  ∃ place fields, policy.StructAt path v place fields ∧ isTracked fields = true ∧
    ∃ name, policy.HoldsNull place fields name ∨ policy.HoldsZero place fields name

/-- What a struct lacks is a field of its own, or is lacking inside a visited field. -/
theorem hasAbsence_object_iff :
    policy.HasAbsence path (.object fields) ↔
      (isTracked fields = true ∧
        ∃ name, policy.HoldsNull path fields name ∨ policy.HoldsZero path fields name) ∨
      ∃ entry ∈ fields, policy.Visited path entry ∧
        policy.HasAbsence (path.field entry.1) entry.2 := by
  constructor
  · rintro ⟨place, inner, inside, lacking⟩
    cases inside with
    | here => exact .inl lacking
    | field member ordinary visible inside =>
      exact .inr ⟨_, member, ⟨ordinary, visible⟩, place, inner, inside, lacking⟩
  · rintro (lacking | ⟨entry, member, visited, place, inner, inside, lacking⟩)
    · exact ⟨path, fields, .here, lacking⟩
    · exact ⟨place, inner, .field member visited.1 visited.2 inside, lacking⟩

section Blank

/-- The lists of a struct without information name nothing. -/
theorem listedNames_of_isBlank (blank : (Value.object fields).isBlank = true) (list : String) :
    Value.listedNames fields list = [] := by
  rw [Value.listedNames]
  cases found : Keyed.get? list fields with
  | none => rfl
  | some v =>
    have blank := Value.isBlank_object_iff.1 blank _ (Keyed.mem_of_get? found)
    cases v with
    | array items =>
      obtain rfl : items = [] := by simpa [Value.isBlank] using blank
      rfl
    | _ => rfl

/-- A list carries no information exactly if it names nothing. -/
theorem Lists.isBlank_iff {list : String} {given : String → Prop}
    (lists : Lists fields list given) (found : Keyed.get? list fields = some v) :
    v.isBlank = true ↔ ∀ name, ¬ given name := by
  obtain ⟨names, same, -, exactly⟩ := lists
  obtain rfl := Option.some.inj (found.symm.trans same)
  rw [Value.strings, Value.isBlank, List.isEmpty_iff, List.map_eq_nil_iff,
    List.eq_nil_iff_forall_not_mem]
  simp only [exactly]

/-- The lists of a struct without information stay so exactly if nothing belongs in them. -/
theorem isBlank_lists_recordedFields_iff (policy : Policy) (path : Path)
    (distinct : (fields.map (·.1)).Nodup) (blank : (Value.object fields).isBlank = true) :
    (∀ list ∈ bookkeepingLists, ∀ w,
      Keyed.get? list (policy.recordedFields path fields) = some w → w.isBlank = true) ↔
      ¬ (isTracked fields = true ∧
        ∃ name, policy.HoldsNull path fields name ∨ policy.HoldsZero path fields name) := by
  cases tracked : isTracked fields with
  | false =>
    refine iff_of_true (fun list isList w found => ?_) (by simp)
    rw [get?_recordedFields_of_list policy path tracked (isBookkeeping_iff.2 isList)] at found
    exact Value.isBlank_object_iff.1 blank _ (Keyed.mem_of_get? found)
  | true =>
    -- Before recording nothing is listed, so what is listed afterwards is absent.
    obtain ⟨nulls, forced⟩ := listsAbsences_recordedFields policy path distinct tracked
    have nothing := listedNames_of_isBlank blank
    simp only [nothing, List.not_mem_nil, false_and, false_or] at nulls forced
    simp only [bookkeepingLists, List.forall_mem_cons, List.not_mem_nil, false_implies,
      implies_true, and_true, nulls.get?_eq, forced.get?_eq, Option.some.injEq, forall_eq',
      nulls.isBlank_iff nulls.get?_eq, forced.isBlank_iff forced.get?_eq, true_and, not_exists,
      not_or, forall_and]

/-- What carries no information carries some once recorded exactly if something in it is absent. -/
theorem isBlank_recordIn_iff (formed : v.WellFormed) (blank : v.isBlank = true) :
    (policy.recordIn path v).isBlank = true ↔ ¬ policy.HasAbsence path v := by
  induction v using Value.inductionOn generalizing path with
  | object fields ih =>
    -- The lists of the struct answer for its own fields, the induction for what is inside them.
    obtain ⟨sorted, each⟩ := Value.wellFormed_object.1 formed
    have blanks := Value.isBlank_object_iff.1 blank
    rw [recordIn_fields, Value.isBlank_object_iff, hasAbsence_object_iff, not_or,
      ← isBlank_lists_recordedFields_iff policy path sorted.nodup blank]
    constructor
    · intro stays
      refine ⟨fun list _ w found => stays _ (Keyed.mem_of_get? found), ?_⟩
      rintro ⟨entry, member, visited, lacking⟩
      have after := mem_recordedFields policy path sorted member visited
      exact (ih entry member (each _ member) (blanks _ member)).1 (stays _ after) lacking
    · rintro ⟨lists, inside⟩ ⟨name, w⟩ member
      cases isList : isBookkeeping name with
      | true =>
        have found := Keyed.get?_of_mem (ascending_recordedFields policy path sorted).nodup member
        exact lists name (isBookkeeping_iff.1 isList) w found
      | false =>
        obtain ⟨v, before, rfl⟩ := (mem_recordedFields_iff policy path sorted isList).1 member
        split
        · exact blanks _ before
        · next visible =>
          exact (ih _ before (each _ before) (blanks _ before)).2 fun lacking =>
            inside ⟨_, before, ⟨isList, visible⟩, lacking⟩
  | array items ih =>
    -- A sequence that carries no information has no items to look into.
    obtain rfl : items = [] := by simpa [Value.isBlank] using blank
    refine iff_of_true rfl ?_
    rintro ⟨_, _, inside, _⟩
    cases inside with
    | item found _ => simp at found
  | _ =>
    refine iff_of_true (by simpa [recordIn] using blank) ?_
    rintro ⟨_, _, inside, _⟩
    cases inside

/-- All lists that are kept inside a value hold names and nothing else. -/
def ListsNames (policy : Policy) (path : Path) (v : Value) : Prop :=
  ∀ place fields, policy.StructAt path v place fields → isTracked fields = true →
    ∀ list ∈ bookkeepingLists, ∃ names, Keyed.get? list fields = some (.strings names)

/-- A list of names that carries no information once recorded carried none before. -/
theorem isBlank_list_of_recorded (distinct : (fields.map (·.1)).Nodup)
    (tracked : isTracked fields = true) {list : String} (isList : list ∈ bookkeepingLists)
    {names : List String} (found : Keyed.get? list fields = some (.strings names))
    (blank : ∀ list ∈ bookkeepingLists, ∀ w,
      Keyed.get? list (policy.recordedFields path fields) = some w → w.isBlank = true) :
    (Value.strings names).isBlank = true := by
  obtain ⟨nulls, forced⟩ := listsAbsences_recordedFields policy path distinct tracked
  have noNulls := (nulls.isBlank_iff nulls.get?_eq).1
    (blank nullFields nullFields_mem _ nulls.get?_eq)
  have noForced := (forced.isBlank_iff forced.get?_eq).1
    (blank forceSendFields forceSendFields_mem _ forced.get?_eq)
  rw [Value.strings, Value.isBlank, List.isEmpty_iff, List.map_eq_nil_iff,
    List.eq_nil_iff_forall_not_mem]
  intro name member
  have listed : name ∈ Value.listedNames fields list := by
    rwa [Value.listedNames_of_strings found]
  -- A name stays in its list or goes over to the other one.
  rcases mem_bookkeepingLists.1 isList with rfl | rfl
  · by_cases zero : policy.HoldsZero path fields name
    · exact noForced name (.inr zero)
    · exact noNulls name (.inl ⟨listed, zero⟩)
  · by_cases null : policy.HoldsNull path fields name
    · exact noNulls name (.inr null)
    · exact noForced name (.inl ⟨listed, null⟩)

/-- As long as lists hold only names, recording takes no information away. -/
theorem isBlank_of_isBlank_recordIn (formed : v.WellFormed) (named : policy.ListsNames path v)
    (blank : (policy.recordIn path v).isBlank = true) : v.isBlank = true := by
  induction v using Value.inductionOn generalizing path with
  | object fields ih =>
    obtain ⟨sorted, each⟩ := Value.wellFormed_object.1 formed
    rw [recordIn_fields, Value.isBlank_object_iff] at blank
    rw [Value.isBlank_object_iff]
    rintro ⟨name, w⟩ member
    cases isList : isBookkeeping name with
    | true =>
      -- A kept list has handed all its names on, and any other list is the same as before.
      have isList := isBookkeeping_iff.1 isList
      have found := Keyed.get?_of_mem sorted.nodup member
      have lists : ∀ list ∈ bookkeepingLists, ∀ w,
          Keyed.get? list (policy.recordedFields path fields) = some w → w.isBlank = true :=
        fun _ _ _ found => blank _ (Keyed.mem_of_get? found)
      cases tracked : isTracked fields with
      | true =>
        obtain ⟨names, same⟩ := named path fields .here tracked name isList
        obtain rfl := Option.some.inj (found.symm.trans same)
        exact isBlank_list_of_recorded sorted.nodup tracked isList same lists
      | false =>
        rw [← get?_recordedFields_of_list policy path tracked (isBookkeeping_iff.2 isList)] at found
        exact lists name isList w found
    | false =>
      by_cases visible : policy.roleAt (path.field name) = .system
      · -- What the system keeps is the same before and after.
        have after := (mem_recordedFields_iff policy path sorted isList).2
          ⟨w, member, if_pos visible⟩
        exact blank _ after
      · have after := mem_recordedFields policy path sorted member ⟨isList, visible⟩
        refine ih _ member (each _ member) (fun place inner inside => ?_) (blank _ after)
        exact named place inner (.field member isList visible inside)
  | _ => rwa [isBlank_recordIn_of_plain policy path rfl] at blank

end Blank

/--
What lets a struct that keeps the rules keep them through recording.

A field that must not carry information has nothing absent inside it, and a listed field that must
carry some still does afterwards.
-/
structure Withstands (policy : Policy) (path : Path) (fields : Fields) : Prop where
  outputOnly : ∀ name v, (name, v) ∈ fields → isBookkeeping name = false →
    policy.roleAt (path.field name) = .outputOnly → ¬ policy.HasAbsence (path.field name) v
  nonZero : ∀ name v, (name, v) ∈ fields → policy.roleAt (path.field name) = .nonZero →
    ∀ list ∈ bookkeepingLists, name ∈ Value.listedNames fields list →
      (policy.recordIn (path.field name) v).isBlank = false
  nulls : ∀ name v, (name, v) ∈ fields → policy.roleAt (path.field name) ≠ .system →
    name ∈ Value.listedNames fields nullFields → ¬ policy.HasAbsence (path.field name) v

section Rules

/-- What is listed after recording was listed before, or counts and is a field of the struct. -/
theorem listed_recordedFields (distinct : (fields.map (·.1)).Nodup) {list : String}
    (isList : list ∈ bookkeepingLists)
    (listed : name ∈ Value.listedNames (policy.recordedFields path fields) list) :
    name ∈ Value.listedNames fields list ∨
      (policy.Counts path name ∧ Keyed.has name fields = true) := by
  obtain ⟨nulls, forced⟩ := mem_listedNames_recordedFields policy path distinct name
  rcases mem_bookkeepingLists.1 isList with rfl | rfl
  · rcases nulls.1 listed with ⟨before, -⟩ | ⟨-, counts, found⟩
    · exact .inl before
    · exact .inr ⟨counts, by rw [Keyed.has, found]; rfl⟩
  · rcases forced.1 listed with ⟨before, -⟩ | ⟨-, counts, _, found, -⟩
    · exact .inl before
    · exact .inr ⟨counts, by rw [Keyed.has, found]; rfl⟩

/-- What was listed and does not count is still listed after recording. -/
theorem still_listed_recordedFields (distinct : (fields.map (·.1)).Nodup)
    (exempt : ¬ policy.Counts path name) {list : String} (isList : list ∈ bookkeepingLists)
    (listed : name ∈ Value.listedNames fields list) :
    name ∈ Value.listedNames (policy.recordedFields path fields) list := by
  obtain ⟨nulls, forced⟩ := mem_listedNames_recordedFields policy path distinct name
  rcases mem_bookkeepingLists.1 isList with rfl | rfl
  · exact nulls.2 (.inl ⟨listed, fun zero => exempt zero.2.1⟩)
  · exact forced.2 (.inl ⟨listed, fun null => exempt null.2.1⟩)

/-- Where there is no struct nothing is absent. -/
theorem not_hasAbsence_of_plain (formed : v.WellFormed) (blank : v.isBlank = true)
    (plain : v.isObject = false) : ¬ policy.HasAbsence path v := by
  rw [← isBlank_recordIn_iff formed blank, isBlank_recordIn_of_plain policy path plain, blank]

/-- A zero value has nothing inside it that could be absent. -/
theorem HoldsZero.not_hasAbsence (zero : policy.HoldsZero path fields name)
    (formed : v.WellFormed) (found : Keyed.get? name fields = some v) :
    ¬ policy.HasAbsence (path.field name) v := by
  obtain ⟨-, w, same, isZero⟩ := zero
  obtain rfl := Option.some.inj (found.symm.trans same)
  simp only [Value.isZero, Bool.and_eq_true, Bool.not_eq_true'] at isZero
  exact not_hasAbsence_of_plain formed isZero.1.1 isZero.2

/-- A struct that keeps the rules before and after recording has withstood it. -/
theorem withstands_of_keeps_recordedFields (formed : (Value.object fields).WellFormed)
    (keeps : policy.Keeps path fields)
    (after : policy.Keeps path (policy.recordedFields path fields)) :
    policy.Withstands path fields := by
  obtain ⟨sorted, each⟩ := Value.wellFormed_object.1 formed
  refine ⟨fun name v member ordinary role => ?_, fun name v member role list isList listed => ?_,
    fun name v member visible listed => ?_⟩
  · -- A field that only the server sets has stayed without information.
    have recorded := mem_recordedFields policy path sorted member ⟨ordinary, by simp [role]⟩
    rw [← isBlank_recordIn_iff (each _ member) (keeps.outputOnly name v member ordinary role)]
    exact after.outputOnly name _ recorded ordinary role
  · -- A field that does not count stays listed, so it must not have lost its information.
    obtain ⟨-, ordinary⟩ := keeps.listed list isList name listed
    have recorded := mem_recordedFields policy path sorted member ⟨ordinary, by simp [role]⟩
    have still := still_listed_recordedFields sorted.nodup (fun counts => counts.zeroable role)
      isList listed
    cases blank : (policy.recordIn (path.field name) v).isBlank with
    | false => rfl
    | true => exact absurd still (after.nonZero name _ recorded role blank list isList)
  · by_cases zero : policy.HoldsZero path fields name
    · -- Its name has moved to the other list, but it is no struct either.
      exact zero.not_hasAbsence (each _ member) (Keyed.get?_of_mem sorted.nodup member)
    · obtain ⟨-, ordinary⟩ := keeps.listed _ nullFields_mem name listed
      have recorded := mem_recordedFields policy path sorted member ⟨ordinary, visible⟩
      have still := (mem_listedNames_recordedFields policy path sorted.nodup name).1.2
        (.inl ⟨listed, fun tracked => zero tracked.2⟩)
      rw [← isBlank_recordIn_iff (each _ member) (keeps.nulls name v member visible listed)]
      exact after.nulls name _ recorded visible still

/-- A struct that withstands recording keeps the rules. -/
theorem Withstands.keeps_recordedFields (withstands : policy.Withstands path fields)
    (formed : (Value.object fields).WellFormed) (keeps : policy.Keeps path fields) :
    policy.Keeps path (policy.recordedFields path fields) := by
  obtain ⟨sorted, each⟩ := Value.wellFormed_object.1 formed
  -- Recording lists only ordinary fields of the struct.
  have known : ∀ list ∈ bookkeepingLists, ∀ name,
      name ∈ Value.listedNames (policy.recordedFields path fields) list →
      Keyed.has name fields = true ∧ isBookkeeping name = false := by
    intro list isList name listed
    rcases listed_recordedFields sorted.nodup isList listed with before | ⟨counts, held⟩
    · exact keeps.listed list isList name before
    · exact ⟨held, counts.ordinary⟩
  refine ⟨fun list isList name listed => ?_, fun name w member ordinary role => ?_,
    fun name w member role blank list isList listed => ?_,
    fun name w member visible listed => ?_⟩
  · -- The fields of the struct are the same as before.
    obtain ⟨held, ordinary⟩ := known list isList name listed
    refine ⟨?_, ordinary⟩
    rwa [Keyed.has, get?_recordedFields policy path fields ordinary, Option.isSome_map]
  · obtain ⟨v, before, rfl⟩ := (mem_recordedFields_iff policy path sorted ordinary).1 member
    rw [if_neg (by simp [role]),
      isBlank_recordIn_iff (each _ before) (keeps.outputOnly name v before ordinary role)]
    exact withstands.outputOnly name v before ordinary role
  · -- Such a field does not count, so no list has come to name it.
    obtain ⟨-, ordinary⟩ := known list isList name listed
    obtain ⟨v, before, rfl⟩ := (mem_recordedFields_iff policy path sorted ordinary).1 member
    rw [if_neg (by simp [role])] at blank
    rcases listed_recordedFields sorted.nodup isList listed with earlier | ⟨counts, -⟩
    · rw [withstands.nonZero name v before role list isList earlier] at blank
      contradiction
    · exact counts.zeroable role
  · obtain ⟨-, ordinary⟩ := known _ nullFields_mem name listed
    obtain ⟨v, before, rfl⟩ := (mem_recordedFields_iff policy path sorted ordinary).1 member
    rw [if_neg visible]
    rcases (mem_listedNames_recordedFields policy path sorted.nodup name).1.1 listed with
      ⟨earlier, -⟩ | ⟨-, -, null⟩
    · rw [isBlank_recordIn_iff (each _ before) (keeps.nulls name v before visible earlier)]
      exact withstands.nulls name v before visible earlier
    · -- A field that has been listed is null, and null it stays.
      rw [Keyed.get?_of_mem sorted.nodup before] at null
      obtain rfl := Option.some.inj null
      rfl

/--
Where lists hold only names, a struct that keeps the rules withstands recording exactly if nothing
is absent inside a field that must not carry information.
-/
theorem withstands_iff_of_listsNames (keeps : policy.Keeps path fields)
    (formed : (Value.object fields).WellFormed)
    (named : ∀ name v, (name, v) ∈ fields → policy.Visited path (name, v) →
      policy.ListsNames (path.field name) v) :
    policy.Withstands path fields ↔
      ∀ name v, (name, v) ∈ fields → policy.Visited path (name, v) →
        (policy.roleAt (path.field name) = .outputOnly ∨
          name ∈ Value.listedNames fields nullFields) →
        ¬ policy.HasAbsence (path.field name) v := by
  obtain ⟨_, each⟩ := Value.wellFormed_object.1 formed
  constructor
  · rintro withstands name v member ⟨ordinary, visible⟩ (role | listed)
    · exact withstands.outputOnly name v member ordinary role
    · exact withstands.nulls name v member visible listed
  · intro complete
    refine ⟨fun name v member ordinary role => ?_,
      fun name v member role list isList listed => ?_, fun name v member visible listed => ?_⟩
    · exact complete name v member ⟨ordinary, by simp [role]⟩ (.inl role)
    · -- A listed field carries information, and recording takes none away.
      obtain ⟨-, ordinary⟩ := keeps.listed list isList name listed
      have names := named name v member ⟨ordinary, by simp [role]⟩
      cases blank : (policy.recordIn (path.field name) v).isBlank with
      | false => rfl
      | true =>
        have before := isBlank_of_isBlank_recordIn (each _ member) names blank
        exact absurd listed (keeps.nonZero name v member role before list isList)
    · obtain ⟨-, ordinary⟩ := keeps.listed _ nullFields_mem name listed
      exact complete name v member ⟨ordinary, visible⟩ (.inr listed)

/-- A struct whose rules are about no structs inside it withstands recording. -/
theorem withstands_of_plain (formed : (Value.object fields).WellFormed)
    (keeps : policy.Keeps path fields)
    (plain : ∀ name inner, (name, .object inner) ∈ fields →
      policy.Visited path (name, .object inner) →
      policy.roleAt (path.field name) ≠ .outputOnly ∧
        ∀ list ∈ bookkeepingLists, name ∉ Value.listedNames fields list) :
    policy.Withstands path fields := by
  obtain ⟨sorted, each⟩ := Value.wellFormed_object.1 formed
  -- A field that the rules are about is then no struct.
  have noStruct : ∀ name v, (name, v) ∈ fields → policy.Visited path (name, v) →
      policy.roleAt (path.field name) = .outputOnly ∨
        (∃ list ∈ bookkeepingLists, name ∈ Value.listedNames fields list) →
      v.isObject = false := by
    intro name v member visited ruled
    cases v with
    | object inner =>
      obtain ⟨settable, unlisted⟩ := plain name inner member visited
      rcases ruled with role | ⟨list, isList, listed⟩
      · exact absurd role settable
      · exact absurd listed (unlisted list isList)
    | _ => rfl
  refine ⟨fun name v member ordinary role => ?_, fun name v member role list isList listed => ?_,
    fun name v member visible listed => ?_⟩
  · exact not_hasAbsence_of_plain (each _ member) (keeps.outputOnly name v member ordinary role)
      (noStruct name v member ⟨ordinary, by simp [role]⟩ (.inl role))
  · obtain ⟨-, ordinary⟩ := keeps.listed list isList name listed
    rw [isBlank_recordIn_of_plain policy _ (noStruct name v member ⟨ordinary, by simp [role]⟩
      (.inr ⟨list, isList, listed⟩))]
    cases blank : v.isBlank with
    | false => rfl
    | true => exact absurd listed (keeps.nonZero name v member role blank list isList)
  · obtain ⟨-, ordinary⟩ := keeps.listed _ nullFields_mem name listed
    exact not_hasAbsence_of_plain (each _ member) (keeps.nulls name v member visible listed)
      (noStruct name v member ⟨ordinary, visible⟩ (.inr ⟨nullFields, nullFields_mem, listed⟩))

end Rules

/-- A value that has passed passes after recording exactly if its structs withstand it. -/
theorem checkIn_recordIn_iff (formed : v.WellFormed)
    (passed : policy.checkIn version path v = .ok ()) :
    policy.checkIn version path (policy.recordIn path v) = .ok () ↔
      ∀ place fields, policy.StructAt path v place fields → policy.Withstands place fields := by
  -- The structs of the result are the recorded structs, each of which kept the rules before.
  have keeps := checkIn_eq_ok_iff.1 passed
  rw [checkIn_eq_ok_iff]
  constructor
  · intro after place fields inside
    exact withstands_of_keeps_recordedFields (inside.wellFormed formed) (keeps _ _ inside)
      (after _ _ ((structAt_recordIn_iff formed).2 ⟨fields, inside, rfl⟩))
  · intro withstands place _ inside
    obtain ⟨fields, before, rfl⟩ := (structAt_recordIn_iff formed).1 inside
    exact (withstands _ _ before).keeps_recordedFields (before.wellFormed formed)
      (keeps _ _ before)

/--
Recording keeps a representation in line with its policy exactly if its structs withstand it.

Where a representation passes the check and what recording makes of it is written as it was
recorded, it passes again exactly if nothing is absent inside a field that must not carry
information, and no listed field that must carry some has lost it. As long as lists hold only names,
recording takes no information away, and only the former is left. Both hold if no struct is the
value of a field that only the server sets or that a list names.
-/
theorem check_recorded_iff {α : Type} (policy : Policy) (version : Version) (codec : Codec α)
    {x filled : α} (formed : ∀ v, codec.encode x = .ok v → v.WellFormed)
    (passed : policy.check version codec x = .ok ())
    (recorded : policy.recordAbsences codec x = .ok filled)
    (returns : ∀ v, codec.encode x = .ok v →
      codec.encode filled = .ok (policy.recordIn Path.root v)) :
    ∃ v, codec.encode x = .ok v ∧
      (policy.check version codec filled = .ok () ↔
        ∀ place fields, policy.StructAt Path.root v place fields →
          policy.Withstands place fields) ∧
      (policy.ListsNames Path.root v →
        (policy.check version codec filled = .ok () ↔
          ∀ place fields, policy.StructAt Path.root v place fields →
            ∀ name w, (name, w) ∈ fields → policy.Visited place (name, w) →
              (policy.roleAt (place.field name) = .outputOnly ∨
                name ∈ Value.listedNames fields nullFields) →
              ¬ policy.HasAbsence (place.field name) w)) ∧
      ((∀ place fields, policy.StructAt Path.root v place fields →
          ∀ name inner, (name, .object inner) ∈ fields →
            policy.Visited place (name, .object inner) →
            policy.roleAt (place.field name) ≠ .outputOnly ∧
              ∀ list ∈ bookkeepingLists, name ∉ Value.listedNames fields list) →
        policy.check version codec filled = .ok ()) := by
  obtain ⟨v, written, -⟩ := recordAbsences_eq_ok_iff.1 recorded
  have formed := formed v written
  have passed : policy.checkIn version Path.root v = .ok () := by
    simpa only [check, Codec.write, written] using passed
  have exactly : policy.check version codec filled = .ok () ↔
      ∀ place fields, policy.StructAt Path.root v place fields →
        policy.Withstands place fields := by
    simp only [check, Codec.write, returns v written, checkIn_recordIn_iff formed passed]
  refine ⟨v, written, exactly, fun names => ?_, fun plain => ?_⟩
  · rw [exactly]
    refine forall₃_congr fun place fields inside => ?_
    refine withstands_iff_of_listsNames (keeps_of_checkIn_ok passed inside)
      (inside.wellFormed formed) fun name w member visited deep inner deeper => ?_
    -- What is inside a field of the struct is inside the value.
    exact names deep inner (inside.field_trans member visited.1 visited.2 deeper)
  · refine exactly.2 fun place fields inside => ?_
    exact withstands_of_plain (inside.wellFormed formed) (keeps_of_checkIn_ok passed inside)
      (plain place fields inside)

/-- A service passes after recording as before, as long as no list names its backend. -/
theorem check_recorded_iff_of_service :
    ∃ filled, initial.recordAbsences (Catalog.stableService.codec "StableService")
        (serviceWithBlankBackend ["Ports"]) = .ok filled ∧
      initial.check .stable (Catalog.stableService.codec "StableService")
        (serviceWithBlankBackend ["Ports"]) = .ok () ∧
      initial.check .stable (Catalog.stableService.codec "StableService") filled = .ok () := by
  have formed : (serviceWithBlankBackend ["Ports"]).WellFormed := by decide
  have recorded : initial.recordAbsences (Catalog.stableService.codec "StableService")
      (serviceWithBlankBackend ["Ports"]) =
        .ok (initial.recordIn Path.root (serviceWithBlankBackend ["Ports"])) := by rfl
  have passed : initial.check .stable (Catalog.stableService.codec "StableService")
      (serviceWithBlankBackend ["Ports"]) = .ok () := by rfl
  obtain ⟨v, written, -, -, clean⟩ := check_recorded_iff initial .stable _
    (fun v written => by
      obtain rfl : serviceWithBlankBackend ["Ports"] = v := Except.ok.inj written
      exact formed) passed recorded
    (fun v written => by
      obtain rfl : serviceWithBlankBackend ["Ports"] = v := Except.ok.inj written
      rfl)
  obtain rfl : serviceWithBlankBackend ["Ports"] = v := Except.ok.inj written
  refine ⟨_, recorded, passed, clean fun place fields inside name inner member _ => ?_⟩
  -- The only struct in a field is the backend of the service.
  rcases structAt_serviceWithBlankBackend inside with ⟨rfl, same⟩ | ⟨rfl, same⟩
  · obtain rfl := Value.object.inj same
    obtain ⟨rfl, -⟩ : name = "Backend" ∧ _ := by simpa [Value.strings] using member
    exact ⟨by decide, by decide⟩
  · obtain rfl := Value.object.inj same
    simp [Value.whole] at member

/-- Not every value that passes does so once it is recorded: its backend is said to be null. -/
theorem not_every_recorded_value_passes :
    ¬ ∀ (α : Type) (policy : Policy) (version : Version) (codec : Codec α) (x filled : α)
      (v : Value), codec.encode x = .ok v → v.WellFormed →
      policy.check version codec x = .ok () → policy.recordAbsences codec x = .ok filled →
      codec.encode filled = .ok (policy.recordIn Path.root v) →
      policy.check version codec filled = .ok () := by
  intro always
  have passes := always Value initial .beta (Catalog.stableService.codec "StableService")
    (serviceWithBlankBackend ["Backend"])
    (initial.recordIn Path.root (serviceWithBlankBackend ["Backend"])) _ rfl (by decide) (by rfl)
    (by rfl) (by rfl)
  have refused : initial.check .beta (Catalog.stableService.codec "StableService")
      (initial.recordIn Path.root (serviceWithBlankBackend ["Backend"])) =
        .error (.policy .beta (Path.root.field "Backend") .setButNull) := by rfl
  rw [refused] at passes
  contradiction

end Triversion.Policy
