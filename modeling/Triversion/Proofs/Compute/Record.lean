import Triversion.Compute.Member
import Triversion.Proofs.Value.Scalars

/-!
Records whose fields are texts, flags, lists of texts and labels.

Such a record writes each of its fields under its name, and a rebuild takes each field as it is
given, whatever else the object holds.
-/

namespace Triversion

/-- What a field of a record holds. -/
inductive FieldSort where
  | text
  | flag
  | texts
  | labels
  deriving DecidableEq

/-- The names of a record's fields, each with the sort of what it holds. -/
abbrev Sorts := List (String × FieldSort)

/-- The written form of labels. -/
def Labels.toValue (labels : Labels) : Value :=
  .object (labels.entries.map fun entry => (entry.1, .string entry.2))

/-- Labels are told apart by their written form. -/
theorem Labels.toValue_injective {a b : Labels} (same : a.toValue = b.toValue) : a = b := by
  -- The entries can be read off the fields, and the order of the entries is no data.
  have entries : a.entries = b.entries := by
    refine (List.map_inj_right fun x y same => ?_).1 (Value.object.inj same)
    obtain ⟨key, text⟩ := Prod.mk.inj same
    exact Prod.ext key (Value.string.inj text)
  cases a
  cases b
  cases entries
  rfl

/-- Written labels are well formed. -/
theorem Labels.wellFormed_toValue (labels : Labels) : labels.toValue.WellFormed := by
  refine Value.wellFormed_object.2
    ⟨Keyed.ascending_map (fun _ text => Value.string text) labels.ascending, ?_⟩
  intro entry member
  obtain ⟨label, _, rfl⟩ := List.mem_map.1 member
  trivial

/-- Lists of texts are told apart by their written form. -/
theorem Value.strings_injective {a b : List String} (same : Value.strings a = Value.strings b) :
    a = b :=
  (List.map_inj_right fun _ _ => Value.string.inj).1 (Value.array.inj same)

namespace FieldSort

/-- The values of a sort. -/
def Holds : FieldSort → Value → Prop
  | .text, v => ∃ s, v = .string s
  | .flag, v => ∃ b, v = .bool b
  | .texts, v => ∃ names, v = Value.strings names
  | .labels, v => ∃ labels : Labels, v = labels.toValue

/-- The value of a sort that carries no information. -/
def blank : FieldSort → Value
  | .text => .string ""
  | .flag => .bool false
  | .texts => .array []
  | .labels => .object []

/-- The sort that a value belongs to, for the values that belong to one. -/
def ofValue : Value → FieldSort
  | .bool _ => .flag
  | .array _ => .texts
  | .object _ => .labels
  | _ => .text

@[simp] theorem ofValue_blank (sort : FieldSort) : ofValue sort.blank = sort := by
  cases sort <;> rfl

theorem blank_isBlank (sort : FieldSort) : sort.blank.isBlank = true := by
  cases sort <;> rfl

/-- A value of a sort is well formed. -/
theorem Holds.wellFormed {sort : FieldSort} {v : Value} (holds : sort.Holds v) : v.WellFormed := by
  cases sort with
  | text =>
    obtain ⟨s, rfl⟩ := holds
    trivial
  | flag =>
    obtain ⟨b, rfl⟩ := holds
    trivial
  | texts =>
    obtain ⟨names, rfl⟩ := holds
    refine Value.wellFormed_array.2 fun item listed => ?_
    obtain ⟨name, _, rfl⟩ := List.mem_map.1 listed
    trivial
  | labels =>
    obtain ⟨labels, rfl⟩ := holds
    exact labels.wellFormed_toValue

end FieldSort

namespace Codec

variable {α : Type}

/-- The fields that a record is written with; what is no object has none. -/
def fields (codec : Codec α) (x : α) : Fields :=
  match codec.encode x with
  | .ok (.object fields) => fields
  | _ => []

/-- The written value of one field of a record. -/
def fieldAt (codec : Codec α) (name : String) (x : α) : Option Value :=
  Keyed.get? name (codec.fields x)

end Codec

/-- The declared fields of an object all hold values of their sorts. -/
def Fits (sorts : Sorts) (fields : Fields) : Prop :=
  ∀ name sort, Keyed.get? name sorts = some sort →
    ∃ v, Keyed.get? name fields = some v ∧ sort.Holds v

/-- An object still fits when a field is set to another value of its sort. -/
theorem Fits.put {sorts : Sorts} {fields : Fields} (fits : Fits sorts fields) {name : String}
    {sort : FieldSort} (sorted : Keyed.get? name sorts = some sort) {v : Value}
    (holds : sort.Holds v) : Fits sorts (Keyed.put name v fields) := by
  intro other declared found
  by_cases same : name = other
  · -- A name has one sort only, so the new value is of the sort that is asked for.
    subst same
    obtain rfl := Option.some.inj (sorted.symm.trans found)
    exact ⟨v, Keyed.get?_put_self _ _ _, holds⟩
  · rw [Keyed.get?_put_of_ne same]
    exact fits other declared found

/-- A representation type that is a record with fields of the given sorts. -/
structure Codec.IsRecord {α : Type} (codec : Codec α) (sorts : Sorts) : Prop where
  encode : ∀ x, codec.encode x = .ok (.object (codec.fields x))
  ascending : ∀ x, Keyed.Ascending (codec.fields x)
  fits : ∀ x, Fits sorts (codec.fields x)
  undeclared : ∀ x name, Keyed.get? name sorts = none → codec.fieldAt name x = none
  /-- A rebuild takes every declared field as it is given, and ignores all other keys. -/
  rebuilds : ∀ fields, Fits sorts fields →
    ∃ y, codec.decode (.object fields) = some y ∧
      ∀ name, Keyed.get? name sorts ≠ none → codec.fieldAt name y = Keyed.get? name fields
  blank : ∀ name sort, Keyed.get? name sorts = some sort →
    codec.fieldAt name codec.initial = some sort.blank

namespace Codec.IsRecord

variable {α : Type} {codec : Codec α} {sorts : Sorts}

/-- What a record holds under a name is of the sort that the name has. -/
theorem holds_of_fieldAt (record : codec.IsRecord sorts) {x : α} {name : String}
    {v : Value} (found : codec.fieldAt name x = some v) :
    ∃ sort, Keyed.get? name sorts = some sort ∧ sort.Holds v := by
  -- A name without a sort is written in no record.
  cases sorted : Keyed.get? name sorts with
  | none => simp [record.undeclared x name sorted] at found
  | some sort =>
    obtain ⟨w, present, holds⟩ := record.fits x name sort sorted
    obtain rfl := Option.some.inj (present.symm.trans found)
    exact ⟨sort, rfl, holds⟩

/-- A record lacks exactly the fields that are not declared. -/
theorem fieldAt_eq_none (record : codec.IsRecord sorts) {x : α} {name : String} :
    codec.fieldAt name x = none ↔ Keyed.get? name sorts = none := by
  refine ⟨fun absent => ?_, record.undeclared x name⟩
  cases sorted : Keyed.get? name sorts with
  | none => rfl
  | some sort =>
    obtain ⟨v, found, _⟩ := record.fits x name sort sorted
    exact absurd (found.symm.trans absent) (by simp)

/-- A record is written as a well-formed object. -/
theorem writesWellFormed (record : codec.IsRecord sorts) : codec.WritesWellFormed := by
  intro x v written
  -- All that is found in the object is of some sort, whose values are well formed.
  obtain rfl := Except.ok.inj ((record.encode x).symm.trans written)
  refine Value.wellFormed_object.2 ⟨record.ascending x, fun entry inside => ?_⟩
  have found : codec.fieldAt entry.1 x = some entry.2 :=
    Keyed.get?_of_mem (record.ascending x).nodup inside
  obtain ⟨sort, _, holds⟩ := record.holds_of_fieldAt found
  exact holds.wellFormed

end Codec.IsRecord

namespace Member

variable {ρ : Type}

/-- A member writes values of its sort, takes each of them as it is given, and takes no others. -/
structure HasSort (member : Member ρ) (sort : FieldSort) : Prop where
  writes : ∀ x, sort.Holds (member.write x)
  reads : ∀ x v, sort.Holds v → ∃ y, member.read x v = some y ∧ member.write y = v
  accepts : ∀ x v y, v.WellFormed → member.read x v = some y → sort.Holds v

/-- A member of some sort that is unset to begin with. -/
def IsPlain (member : Member ρ) (initial : ρ) : Prop :=
  ∃ sort : FieldSort, member.HasSort sort ∧ member.write initial = sort.blank

/-- Setting one member leaves another one alone. -/
def Keeps (member other : Member ρ) : Prop :=
  ∀ x v y, other.read x v = some y → member.write y = member.write x

/-- Reading all items succeeds exactly on what is written item by item. -/
theorem mapM_eq_some_iff {α β : Type} {read : α → Option β} {write : β → α}
    (inverse : ∀ a b, read a = some b ↔ a = write b) {items : List α} {results : List β} :
    items.mapM read = some results ↔ items = results.map write := by
  -- Both sides ask for the same of the first item, and for the same of all others.
  induction items generalizing results with
  | nil => cases results <;> simp
  | cons item rest ih =>
    cases results with
    | nil => simp [List.mapM_cons, Option.bind_eq_some_iff]
    | cons result others => simp [List.mapM_cons, Option.bind_eq_some_iff, inverse, ih]

/-- Texts are read from the sequence that is written of them, and from no other. -/
theorem texts?_eq_some_iff {v : Value} {names : List String} :
    texts? v = some names ↔ v = Value.strings names := by
  have inverse : ∀ (v : Value) s, v.string? = some s ↔ v = .string s := by
    intro v s
    cases v <;> simp [Value.string?]
  cases v <;> simp [texts?, Value.strings, mapM_eq_some_iff inverse]

/-- Labels are read from the well-formed object that is written of them, and from no other. -/
theorem labels?_eq_some_iff {v : Value} (formed : v.WellFormed) {labels : Labels} :
    labels? v = some labels ↔ v = labels.toValue := by
  have inverse : ∀ (entry : String × Value) (label : String × String),
      labelEntry? entry = some label ↔ entry = (label.1, .string label.2) := by
    intro entry label
    obtain ⟨key, v⟩ := entry
    obtain ⟨name, text⟩ := label
    cases v <;> simp [Value.string?, labelEntry?]
  cases v with
  | object fields =>
    simp only [labels?, Option.map_eq_some_iff, mapM_eq_some_iff inverse, Labels.toValue,
      Value.object.injEq]
    constructor
    · intro read
      obtain ⟨entries, rfl, rfl⟩ := read
      -- The fields ascend, so that storing them by their keys changes nothing.
      have sorted : Keyed.Ascending entries :=
        (Keyed.ascending_iff_of_map_fst (by simp)).1 (Value.wellFormed_object.1 formed).1
      rw [Labels.ofList]
      simp only [Keyed.ofList_of_ascending sorted]
    · intro written
      subst written
      refine ⟨labels.entries, rfl, ?_⟩
      simp only [Labels.ofList, Keyed.ofList_of_ascending labels.ascending]
  | _ => simp [labels?, Labels.toValue]

section Constructors

variable {name : String} {initial : ρ}

theorem isPlain_text {get : ρ → String} {set : ρ → String → ρ}
    (reads : ∀ x v, get (set x v) = v) (unset : get initial = "") :
    (text name get set).IsPlain initial := by
  -- A text is taken as it is; the law of the setter says that it is written again.
  refine ⟨.text, ⟨fun x => ⟨get x, rfl⟩, ?_, ?_⟩, congrArg Value.string unset⟩
  · intro x v holds
    obtain ⟨s, rfl⟩ := holds
    exact ⟨set x s, rfl, congrArg Value.string (reads x s)⟩
  · intro x v y _ taken
    cases v <;> simp [text, Value.string?] at taken
    exact ⟨_, rfl⟩

theorem isPlain_flag {get : ρ → Bool} {set : ρ → Bool → ρ}
    (reads : ∀ x v, get (set x v) = v) (unset : get initial = false) :
    (flag name get set).IsPlain initial := by
  refine ⟨.flag, ⟨fun x => ⟨get x, rfl⟩, ?_, ?_⟩, congrArg Value.bool unset⟩
  · intro x v holds
    obtain ⟨b, rfl⟩ := holds
    exact ⟨set x b, rfl, congrArg Value.bool (reads x b)⟩
  · intro x v y _ taken
    cases v <;> simp [flag, bool?] at taken
    exact ⟨_, rfl⟩

theorem isPlain_texts {get : ρ → List String} {set : ρ → List String → ρ}
    (reads : ∀ x v, get (set x v) = v) (unset : get initial = []) :
    (texts name get set).IsPlain initial := by
  refine ⟨.texts, ⟨fun x => ⟨get x, rfl⟩, ?_, ?_⟩, congrArg Value.strings unset⟩
  · intro x v holds
    obtain ⟨names, rfl⟩ := holds
    exact ⟨set x names, Option.map_eq_some_iff.2 ⟨names, texts?_eq_some_iff.2 rfl, rfl⟩,
      congrArg Value.strings (reads x names)⟩
  · intro x v y _ taken
    obtain ⟨names, listed, _⟩ := Option.map_eq_some_iff.1 taken
    exact ⟨names, texts?_eq_some_iff.1 listed⟩

theorem isPlain_labels {get : ρ → Labels} {set : ρ → Labels → ρ}
    (reads : ∀ x v, get (set x v) = v) (unset : get initial = Labels.empty) :
    (labels name get set).IsPlain initial := by
  refine ⟨.labels, ⟨fun x => ⟨get x, rfl⟩, ?_, ?_⟩, congrArg Labels.toValue unset⟩
  · intro x v holds
    obtain ⟨given, rfl⟩ := holds
    exact ⟨set x given, Option.map_eq_some_iff.2
      ⟨given, (labels?_eq_some_iff given.wellFormed_toValue).2 rfl, rfl⟩,
      congrArg Labels.toValue (reads x given)⟩
  · intro x v y formed taken
    obtain ⟨given, listed, _⟩ := Option.map_eq_some_iff.1 taken
    exact ⟨given, (labels?_eq_some_iff formed).1 listed⟩

variable {member : Member ρ}

theorem keeps_text {get : ρ → String} {set : ρ → String → ρ}
    (apart : ∀ x v, member.write (set x v) = member.write x) :
    member.Keeps (text name get set) := by
  intro x v y taken
  obtain ⟨s, _, rfl⟩ := Option.map_eq_some_iff.1 taken
  exact apart x s

theorem keeps_flag {get : ρ → Bool} {set : ρ → Bool → ρ}
    (apart : ∀ x v, member.write (set x v) = member.write x) :
    member.Keeps (flag name get set) := by
  intro x v y taken
  obtain ⟨b, _, rfl⟩ := Option.map_eq_some_iff.1 taken
  exact apart x b

theorem keeps_texts {get : ρ → List String} {set : ρ → List String → ρ}
    (apart : ∀ x v, member.write (set x v) = member.write x) :
    member.Keeps (texts name get set) := by
  intro x v y taken
  obtain ⟨names, _, rfl⟩ := Option.map_eq_some_iff.1 taken
  exact apart x names

theorem keeps_labels {get : ρ → Labels} {set : ρ → Labels → ρ}
    (apart : ∀ x v, member.write (set x v) = member.write x) :
    member.Keeps (labels name get set) := by
  intro x v y taken
  obtain ⟨given, _, rfl⟩ := Option.map_eq_some_iff.1 taken
  exact apart x given

end Constructors

/-- The sorts of a record's members, as the record in which nothing is set shows them. -/
def sorts (members : List (Member ρ)) (initial : ρ) : Sorts :=
  members.map fun member => (member.name, .ofValue (member.write initial))

/-- Members with names of their own, each of some sort, that do not disturb each other. -/
structure Lawful (members : List (Member ρ)) (initial : ρ) : Prop where
  distinct : (members.map (·.name)).Nodup
  independent : members.Pairwise Keeps
  plain : ∀ member ∈ members, member.IsPlain initial

/-- Reading other members leaves one as it was. -/
theorem write_of_readNamed {fields : Fields} {members : List (Member ρ)} {member : Member ρ}
    (apart : ∀ other ∈ members, member.Keeps other) {x y : ρ}
    (taken : readNamed fields members x = some y) : member.write y = member.write x := by
  -- The members are read in turn, and none of them changes what this one writes.
  induction members generalizing x with
  | nil =>
    obtain rfl := Option.some.inj taken
    rfl
  | cons other rest ih =>
    rw [readNamed] at taken
    have behind := fun next =>
      ih (x := next) fun m inside => apart m (List.mem_cons_of_mem _ inside)
    split at taken
    · exact behind x taken
    · next v _ =>
      obtain ⟨next, first, taken⟩ := Option.bind_eq_some_iff.1 taken
      rw [behind next taken, apart other List.mem_cons_self x v next first]

/-- An object that holds a value of its sort for every member sets every member to that value. -/
theorem readNamed_of_fits {fields : Fields} {members : List (Member ρ)}
    (independent : members.Pairwise Keeps)
    (given : ∀ member ∈ members, ∃ sort v, member.HasSort sort ∧
      Keyed.get? member.name fields = some v ∧ sort.Holds v) (x : ρ) :
    ∃ y, readNamed fields members x = some y ∧
      ∀ member ∈ members, Keyed.get? member.name fields = some (member.write y) := by
  -- The members are set in turn, each from a record in which others are set already.
  induction members generalizing x with
  | nil => exact ⟨x, rfl, by simp⟩
  | cons member rest ih =>
    obtain ⟨apart, independent⟩ := List.pairwise_cons.1 independent
    obtain ⟨sort, v, sorted, found, holds⟩ := given member List.mem_cons_self
    obtain ⟨next, read, written⟩ := sorted.reads x v holds
    obtain ⟨y, taken, settled⟩ :=
      ih independent (fun m inside => given m (List.mem_cons_of_mem _ inside)) next
    refine ⟨y, by simp only [readNamed, found, read, Option.bind_some, taken], ?_⟩
    intro m inside
    rcases List.mem_cons.1 inside with rfl | inside
    · -- The members behind do not disturb the one that was set before them.
      rw [found, write_of_readNamed apart taken, written]
    · exact settled m inside

/-- A member that an object gives a value for is written with that value again. -/
theorem write_of_given {fields : Fields} (formed : (Value.object fields).WellFormed)
    {members : List (Member ρ)} (independent : members.Pairwise Keeps)
    (sorted : ∀ member ∈ members, ∃ sort, member.HasSort sort) {member : Member ρ}
    (inside : member ∈ members) {v : Value} (given : Keyed.get? member.name fields = some v)
    {x y : ρ} (taken : readNamed fields members x = some y) : member.write y = v := by
  -- The induction is on the members in front, since those behind leave the value alone.
  induction members generalizing x with
  | nil => simp at inside
  | cons first rest ih =>
    obtain ⟨apart, independent⟩ := List.pairwise_cons.1 independent
    obtain ⟨sort, holds⟩ := sorted first List.mem_cons_self
    have behind := fun later next =>
      ih independent (fun m listed => sorted m (List.mem_cons_of_mem _ listed)) later (x := next)
    rw [readNamed] at taken
    rcases List.mem_cons.1 inside with rfl | later
    · -- The value is read first, and the members behind leave what was read alone.
      simp only [given] at taken
      obtain ⟨next, read, taken⟩ := Option.bind_eq_some_iff.1 taken
      have accepted := holds.accepts x v next (formed.of_get? given) read
      obtain ⟨other, readAgain, written⟩ := holds.reads x v accepted
      obtain rfl := Option.some.inj (read.symm.trans readAgain)
      rw [write_of_readNamed apart taken, written]
    · split at taken
      · exact behind later x taken
      · obtain ⟨next, _, taken⟩ := Option.bind_eq_some_iff.1 taken
        exact behind later next taken

section Lawful

variable {members : List (Member ρ)} {initial : ρ}

/-- A name has a sort exactly if a member is called so, and the sort is that of the member. -/
theorem Lawful.sorts_cases (lawful : Lawful members initial) {name : String} {sort : FieldSort}
    (sorted : Keyed.get? name (sorts members initial) = some sort) :
    ∃ member ∈ members, member.name = name ∧ member.HasSort sort ∧
      member.write initial = sort.blank := by
  obtain ⟨member, inside, listed⟩ := List.mem_map.1 (Keyed.mem_of_get? sorted)
  obtain ⟨rfl, rfl⟩ := Prod.mk.inj listed
  -- The listed sort is the one of the blank that the member writes when it is unset.
  obtain ⟨sort, holds, unset⟩ := lawful.plain member inside
  refine ⟨member, inside, rfl, ?_⟩
  simpa only [unset, FieldSort.ofValue_blank, and_true] using holds

/-- The name of a member has the sort of the member. -/
theorem Lawful.sorts_of_mem (lawful : Lawful members initial) {member : Member ρ}
    (inside : member ∈ members) :
    ∃ sort, member.HasSort sort ∧
      Keyed.get? member.name (sorts members initial) = some sort := by
  obtain ⟨sort, holds, unset⟩ := lawful.plain member inside
  refine ⟨sort, holds, Keyed.get?_of_mem ?_ (List.mem_map.2 ⟨member, inside, ?_⟩)⟩
  · simpa only [sorts, List.map_map, Function.comp_def] using lawful.distinct
  · rw [unset, FieldSort.ofValue_blank]

/-- A name without a sort is the name of no member. -/
theorem sorts_eq_none_iff {name : String} :
    Keyed.get? name (sorts members initial) = none ↔ name ∉ members.map (·.name) := by
  simp only [sorts, Keyed.get?_eq_none_iff, List.map_map, Function.comp_def]

/-- What a record writes under a name is looked up among its members. -/
theorem Lawful.fieldAt_codec (lawful : Lawful members initial) (type name : String) (x : ρ) :
    (codec type initial members).fieldAt name x =
      Keyed.get? name (members.map fun member => (member.name, member.write x)) := by
  refine Keyed.get?_ofList ?_ name
  simpa only [List.map_map, Function.comp_def] using lawful.distinct

/-- Every member is written under its name. -/
theorem Lawful.fieldAt_of_mem (lawful : Lawful members initial) (type : String)
    {member : Member ρ} (inside : member ∈ members) (x : ρ) :
    (codec type initial members).fieldAt member.name x = some (member.write x) := by
  rw [lawful.fieldAt_codec]
  refine Keyed.get?_of_mem ?_ (List.mem_map_of_mem inside)
  simpa only [List.map_map, Function.comp_def] using lawful.distinct

/-- A field is the same in records whose members of that name write the same. -/
theorem Lawful.fieldAt_congr (lawful : Lawful members initial) (type : String) {name : String}
    {x y : ρ} (same : ∀ member ∈ members, member.name = name → member.write x = member.write y) :
    (codec type initial members).fieldAt name x =
      (codec type initial members).fieldAt name y := by
  by_cases called : name ∈ members.map (·.name)
  · obtain ⟨member, inside, rfl⟩ := List.mem_map.1 called
    rw [lawful.fieldAt_of_mem type inside, lawful.fieldAt_of_mem type inside,
      same member inside rfl]
  · -- A name of no member is written in no record.
    have absent : ∀ z, (codec type initial members).fieldAt name z = none := by
      intro z
      rw [lawful.fieldAt_codec, Keyed.get?_eq_none_iff]
      simpa only [List.map_map, Function.comp_def] using called
    rw [absent x, absent y]

/-- A lawful list of members makes a record. -/
theorem Lawful.isRecord (lawful : Lawful members initial) (type : String) :
    (codec type initial members).IsRecord (sorts members initial) where
  encode _ := rfl
  ascending _ := Keyed.ascending_ofList _
  fits x name sort sorted := by
    obtain ⟨member, inside, rfl, holds, _⟩ := lawful.sorts_cases sorted
    exact ⟨_, lawful.fieldAt_of_mem type inside x, holds.writes x⟩
  undeclared x name unsorted := by
    rw [lawful.fieldAt_codec, Keyed.get?_eq_none_iff]
    simpa only [List.map_map, Function.comp_def] using sorts_eq_none_iff.1 unsorted
  rebuilds fields fits := by
    -- Every member is given a value of its sort, so reading them fails nowhere.
    have given : ∀ member ∈ members, ∃ sort v, member.HasSort sort ∧
        Keyed.get? member.name fields = some v ∧ sort.Holds v := by
      intro member inside
      obtain ⟨sort, sorted, listed⟩ := lawful.sorts_of_mem inside
      obtain ⟨v, found, holds⟩ := fits member.name sort listed
      exact ⟨sort, v, sorted, found, holds⟩
    obtain ⟨y, taken, settled⟩ := readNamed_of_fits lawful.independent given initial
    refine ⟨y, taken, fun name sorted => ?_⟩
    obtain ⟨sort, sorted⟩ := Option.ne_none_iff_exists'.1 sorted
    obtain ⟨member, inside, rfl, _⟩ := lawful.sorts_cases sorted
    rw [lawful.fieldAt_of_mem type inside, settled member inside]
  blank name sort sorted := by
    obtain ⟨member, inside, rfl, _, unset⟩ := lawful.sorts_cases sorted
    exact unset ▸ lawful.fieldAt_of_mem type inside initial

/--
A lawful list of members keeps scalars.

A given member is written with what was given, and what no member is called is not written at all.
-/
theorem Lawful.keepsScalars (lawful : Lawful members initial) (type : String) :
    (codec type initial members).KeepsScalars := by
  intro fields settled formed again names scalar has
  obtain ⟨name, rest, part, rfl, found, inside⟩ := has.of_object
  have record := lawful.isRecord type
  obtain ⟨y, taken, rfl⟩ : ∃ y, readNamed fields members initial = some y ∧
      .object ((codec type initial members).fields y) = settled := by
    unfold Codec.roundTrip at again
    split at again
    · contradiction
    · next y taken => exact ⟨y, taken, Option.some.inj again⟩
  cases sorted : Keyed.get? name (sorts members initial) with
  | some sort =>
    obtain ⟨member, called, rfl, _⟩ := lawful.sorts_cases sorted
    have written : member.write y = part := by
      refine write_of_given formed lawful.independent (fun m listed => ?_) called found taken
      obtain ⟨sort, holds, _⟩ := lawful.plain m listed
      exact ⟨sort, holds⟩
    have kept := lawful.fieldAt_of_mem type called y
    refine .inl ⟨scalar, ?_, .refl has.isScalar⟩
    rw [written] at kept
    exact (Value.HasScalar.object_iff.2 ⟨part, kept, inside⟩).found
  | none => exact .inr ⟨[], name, rest, _, rfl, rfl, record.undeclared y name sorted⟩

end Lawful

end Member

end Triversion
