import Mathlib.Data.List.Induction
import Mathlib.Data.List.Nodup
import Triversion.Policy.Basic

/-!
The role of a field as a function of the declarations.

A policy is built by declaring one route after another. However long and repetitive the history is,
only the last declaration of each route is left, so the role of a field can be read off the history
without the policy.
-/

namespace Triversion.Policy

/-- The policy after a sequence of declarations, with nothing declared before it. -/
def declareAll (declarations : List (Role × Path)) : Policy :=
  declarations.foldl (fun policy entry => policy.declare entry.2 entry.1) ⟨[]⟩

/-- Everything that is declared, beginning with the bookkeeping lists of the whole value. -/
def history (declarations : List (Role × Path)) : List (Role × Path) :=
  (.system, Path.root.field nullFields) :: (.system, Path.root.field forceSendFields) ::
    declarations

/-- The roles declared for a place, oldest first; a declaration drops the positions of its route. -/
def declaredFor (place : Path) (declarations : List (Role × Path)) : List Role :=
  (declarations.filter fun entry => entry.2.withoutPositions = place).map (·.1)

/-- A place is the longest part of a route, from its beginning on, that was ever declared. -/
structure LongestDeclared (declarations : List (Role × Path)) (path place : Path) : Prop where
  begins : place <+: path.withoutPositions
  declared : declaredFor place declarations ≠ []
  longest : ∀ other, other <+: path.withoutPositions → declaredFor other declarations ≠ [] →
    other.length ≤ place.length

/-- No route is declared twice, and none contains a position. -/
structure Tidy (policy : Policy) : Prop where
  distinct : (policy.declared.map (·.1)).Nodup
  stripped : ∀ entry ∈ policy.declared, ∀ i, Segment.index i ∉ entry.1

section Declaring

variable {policy : Policy} {path place : Path} {role other : Role}
  {declarations : List (Role × Path)}

/-- A route without its positions contains no position. -/
theorem index_notMem_withoutPositions (path : Path) (i : Nat) :
    Segment.index i ∉ path.withoutPositions := by
  simp [Path.withoutPositions, Segment.isIndex]

/-- A declaration decides its own place, and leaves all other places as they were. -/
theorem mem_declare : (place, role) ∈ (policy.declare path other).declared ↔
    if place = path.withoutPositions then role = other else (place, role) ∈ policy.declared := by
  by_cases same : place = path.withoutPositions
  · simp [declare, same]
  · simp [declare, same]

/-- One more declaration leaves the places distinct and without positions. -/
theorem Tidy.declare (tidy : policy.Tidy) : (policy.declare path role).Tidy := by
  refine ⟨?_, fun entry stands i => ?_⟩
  · -- The older declaration for the same place is dropped before the new one is appended.
    simp only [Policy.declare, List.map_append, List.map_cons, List.map_nil, List.nodup_append]
    refine ⟨tidy.distinct.sublist (List.filter_sublist.map _), by simp, ?_⟩
    intro old standing new added same
    obtain ⟨entry, kept, rfl⟩ := List.mem_map.1 standing
    rw [List.mem_singleton.1 added] at same
    simpa [same] using (List.mem_filter.1 kept).2
  · rcases List.mem_append.1 stands with old | new
    · exact tidy.stripped entry (List.mem_filter.1 old).1 i
    · rw [List.mem_singleton.1 new]
      exact index_notMem_withoutPositions path i

/-- The roles declared for a place after one more declaration. -/
theorem declaredFor_append_singleton (place : Path) (declarations : List (Role × Path))
    (entry : Role × Path) : declaredFor place (declarations ++ [entry]) =
      declaredFor place declarations ++
        if entry.2.withoutPositions = place then [entry.1] else [] := by
  unfold declaredFor
  split
  · next same => simp [same]
  · next differs => simp [differs]

/-- A sequence of declarations leaves the places distinct and without positions. -/
theorem tidy_declareAll (declarations : List (Role × Path)) :
    (declareAll declarations).Tidy := by
  -- The induction is on the last declaration, as the policy grows at its end.
  induction declarations using List.reverseRecOn with
  | nil => exact ⟨List.nodup_nil, fun entry none => absurd none List.not_mem_nil⟩
  | append_singleton declarations entry ih =>
    rw [declareAll, List.foldl_append]
    exact ih.declare

/-- Of all that was declared for a place, a policy contains the last. -/
theorem mem_declareAll : (place, role) ∈ (declareAll declarations).declared ↔
    (declaredFor place declarations).getLast? = some role := by
  -- Again the last declaration is taken off, since it is the one that counts.
  induction declarations using List.reverseRecOn with
  | nil => simp [declareAll, declaredFor]
  | append_singleton declarations entry ih =>
    rw [declareAll, List.foldl_append]
    show (place, role) ∈ ((declareAll declarations).declare entry.2 entry.1).declared ↔ _
    rw [mem_declare, declaredFor_append_singleton]
    by_cases same : place = entry.2.withoutPositions
    · -- The last declaration is for this place, and nothing older counts.
      simp [same, eq_comm]
    · -- It is for another place, and what was last before it is still last.
      simp [same, Ne.symm same, ih]

/-- Something stands for a place exactly if the place was ever declared. -/
theorem exists_mem_declareAll :
    (∃ role, (place, role) ∈ (declareAll declarations).declared) ↔
      declaredFor place declarations ≠ [] := by
  simp only [mem_declareAll]
  rw [← Option.isSome_iff_exists, Option.isSome_iff_ne_none, ne_eq, List.getLast?_eq_none_iff]

/-- What is declared for a place after the two lists of the whole value have been. -/
theorem declaredFor_history (place : Path) (declarations : List (Role × Path)) :
    declaredFor place (history declarations) =
      declaredFor place (history []) ++ declaredFor place declarations := by
  simp only [declaredFor, ← List.map_append, ← List.filter_append]
  rfl

/-- The bookkeeping lists of the whole value count as declared first. -/
theorem ofList_eq_declareAll (declarations : List (Role × Path)) :
    ofList declarations = declareAll (history declarations) :=
  rfl

end Declaring

section Looking

variable {policy : Policy} {path place : Path} {role : Role}

/-- The choice among declarations is one of them, and none of them is for a longer route. -/
theorem foldl_longer_some (best : Path × Role) (entries : List (Path × Role)) :
    ∃ found, entries.foldl longer (some best) = some found ∧ found ∈ best :: entries ∧
      ∀ entry ∈ best :: entries, entry.1.length ≤ found.1.length := by
  -- Either declaration may stay as the best one, and the rest is compared with that.
  induction entries generalizing best with
  | nil => exact ⟨best, rfl, by simp, by simp⟩
  | cons entry rest ih =>
    rw [List.foldl_cons, longer]
    split
    · next shorter =>
      -- What was best is dropped, but it is shorter than what is best in the end.
      obtain ⟨found, chosen, among, longest⟩ := ih entry
      have := longest entry List.mem_cons_self
      exact ⟨found, chosen, List.mem_cons_of_mem _ among,
        List.forall_mem_cons.2 ⟨by omega, longest⟩⟩
    · next longerBest =>
      -- The declaration is passed over, and it is no longer than what was best.
      obtain ⟨found, chosen, among, longest⟩ := ih best
      have := longest best List.mem_cons_self
      refine ⟨found, chosen, ?_, ?_⟩
      · rcases List.mem_cons.1 among with rfl | inside
        · exact List.mem_cons_self
        · exact List.mem_cons_of_mem _ (List.mem_cons_of_mem _ inside)
      · intro other standing
        rcases List.mem_cons.1 standing with rfl | later
        · exact this
        · rcases List.mem_cons.1 later with rfl | later
          · omega
          · exact longest other (List.mem_cons_of_mem _ later)

/-- At most one declaration has a given length among those that a route begins with. -/
theorem Tidy.entry_unique (tidy : policy.Tidy) {first second : Path × Role}
    (one : first ∈ policy.declared) (two : second ∈ policy.declared)
    (beginsFirst : first.1 <+: path) (beginsSecond : second.1 <+: path)
    (length : first.1.length = second.1.length) : first = second := by
  -- Two beginnings of one route that are equally long are the same.
  have same : first.1 = second.1 :=
    (List.prefix_of_prefix_length_le beginsFirst beginsSecond (Nat.le_of_eq length)).eq_of_length
      length
  exact List.inj_on_of_nodup_map tidy.distinct one two same

/-- The role of a field is that of the longest declaration that its route begins with. -/
theorem Tidy.roleAt_eq_iff (tidy : policy.Tidy) : policy.roleAt path = role ↔
    (∃ place, (place, role) ∈ policy.declared ∧ place <+: path.withoutPositions ∧
      ∀ entry ∈ policy.declared, entry.1 <+: path.withoutPositions →
        entry.1.length ≤ place.length) ∨
    (role = .ordinary ∧ ∀ entry ∈ policy.declared, ¬entry.1 <+: path.withoutPositions) := by
  have matching : ∀ entry, entry ∈ policy.declared.filter
      (fun entry => path.withoutPositions.startsWith entry.1) ↔
        entry ∈ policy.declared ∧ entry.1 <+: path.withoutPositions := by
    simp [Path.startsWith]
  unfold roleAt
  simp only
  generalize policy.declared.filter (fun entry => path.withoutPositions.startsWith entry.1) =
    candidates at matching ⊢
  cases candidates with
  | nil =>
    -- Nothing matches, so the field has no declared role.
    have unmatched : ∀ entry ∈ policy.declared, ¬entry.1 <+: path.withoutPositions :=
      fun entry stands begins => absurd ((matching entry).2 ⟨stands, begins⟩) List.not_mem_nil
    rw [List.foldl_nil]
    constructor
    · exact fun same => .inr ⟨same.symm, unmatched⟩
    · rintro (⟨place, stands, begins, -⟩ | ⟨same, -⟩)
      · exact absurd begins (unmatched _ stands)
      · exact same.symm
  | cons head rest =>
    -- The first match starts the comparison, so one of the longest is found.
    obtain ⟨found, chosen, among, longest⟩ := foldl_longer_some head rest
    obtain ⟨stands, begins⟩ := (matching found).1 among
    have first : longer none head = some head := rfl
    rw [List.foldl_cons, first, chosen]
    have longest : ∀ entry ∈ policy.declared, entry.1 <+: path.withoutPositions →
        entry.1.length ≤ found.1.length :=
      fun entry standing beginning => longest entry ((matching entry).2 ⟨standing, beginning⟩)
    constructor
    · rintro rfl
      exact .inl ⟨found.1, stands, begins, longest⟩
    · rintro (⟨place, standing, beginning, longer⟩ | ⟨-, unmatched⟩)
      · -- Two longest declarations are one and the same.
        have length : found.1.length = place.length :=
          Nat.le_antisymm (longer found stands begins) (longest _ standing beginning)
        rw [tidy.entry_unique stands standing begins beginning length]
      · exact absurd begins (unmatched found stands)

/-- The role of a field, read off a history of declarations. -/
theorem roleAt_declareAll {declarations : List (Role × Path)} :
    (declareAll declarations).roleAt path = role ↔
      (∃ place, LongestDeclared declarations path place ∧
        (declaredFor place declarations).getLast? = some role) ∨
      (role = .ordinary ∧
        ∀ place, place <+: path.withoutPositions → declaredFor place declarations = []) := by
  -- What stands in the policy is translated, place by place, into what was declared.
  rw [(tidy_declareAll declarations).roleAt_eq_iff]
  refine or_congr (exists_congr fun place => ?_) (and_congr_right fun _ => ?_)
  · rw [mem_declareAll]
    constructor
    · rintro ⟨last, begins, longest⟩
      refine ⟨⟨begins, ?_, fun other beginning declared => ?_⟩, last⟩
      · exact exists_mem_declareAll.1 ⟨role, mem_declareAll.2 last⟩
      · obtain ⟨stored, stands⟩ := exists_mem_declareAll.2 declared
        exact longest _ stands beginning
    · rintro ⟨⟨begins, -, longest⟩, last⟩
      exact ⟨last, begins, fun entry stands beginning =>
        longest entry.1 beginning (exists_mem_declareAll.1 ⟨entry.2, stands⟩)⟩
  · constructor
    · intro unmatched place begins
      refine Classical.not_not.1 fun declared => ?_
      obtain ⟨stored, stands⟩ := exists_mem_declareAll.2 declared
      exact unmatched _ stands begins
    · intro undeclared entry stands begins
      exact exists_mem_declareAll.1 ⟨entry.2, stands⟩ (undeclared _ begins)

/-- Which place is the longest depends on nothing but what is declared for each place. -/
theorem LongestDeclared.of_same {one other : List (Role × Path)}
    (same : ∀ place, declaredFor place one = declaredFor place other)
    (longest : LongestDeclared one path place) : LongestDeclared other path place := by
  obtain ⟨begins, declared, longest⟩ := longest
  refine ⟨begins, same place ▸ declared, fun rival beginning standing => ?_⟩
  exact longest rival beginning (same rival ▸ standing)

/-- Two histories that declare the same for each place, in the same order, say the same. -/
theorem roleAt_declareAll_congr {one other : List (Role × Path)}
    (same : ∀ place, declaredFor place one = declaredFor place other) (path : Path) :
    (declareAll one).roleAt path = (declareAll other).roleAt path := by
  rw [roleAt_declareAll]
  rcases roleAt_declareAll.1 (Eq.refl ((declareAll other).roleAt path)) with
    ⟨place, longest, last⟩ | ⟨ordinary, undeclared⟩
  · exact .inl ⟨place, longest.of_same fun place => (same place).symm, (same place).symm ▸ last⟩
  · exact .inr ⟨ordinary, fun place begins => (same place).trans (undeclared place begins)⟩

end Looking

/--
The role of a field depends on nothing but the last declaration of each place.

Whatever was declared before, in which order and how often, a field plays the last role declared
for the longest place its route begins with. So declarations of different places can change places,
and the places that a policy contains are distinct and free of positions, which leaves no two
declarations of one length to choose from.
-/
theorem role_is_last_declared (declarations : List (Role × Path)) :
    (∀ path role, (ofList declarations).roleAt path = role ↔
      (∃ place, LongestDeclared (history declarations) path place ∧
        (declaredFor place (history declarations)).getLast? = some role) ∨
      (role = .ordinary ∧ ∀ place, place <+: path.withoutPositions →
        declaredFor place (history declarations) = [])) ∧
    (∀ reordered, (∀ place, declaredFor place reordered = declaredFor place declarations) →
      ∀ path, (ofList reordered).roleAt path = (ofList declarations).roleAt path) ∧
    ((ofList declarations).declared.map (·.1)).Nodup ∧
    (∀ entry ∈ (ofList declarations).declared, ∀ i, Segment.index i ∉ entry.1) ∧
    (∀ path, ∀ first ∈ (ofList declarations).declared,
      ∀ second ∈ (ofList declarations).declared, first.1 <+: path → second.1 <+: path →
        first.1.length = second.1.length → first = second) := by
  have tidy := tidy_declareAll (history declarations)
  rw [ofList_eq_declareAll]
  refine ⟨fun path role => roleAt_declareAll, ?_, tidy.distinct, tidy.stripped, ?_⟩
  · intro reordered same path
    rw [ofList_eq_declareAll]
    refine roleAt_declareAll_congr (fun place => ?_) path
    rw [declaredFor_history place reordered, declaredFor_history place declarations, same place]
  · exact fun path first one second two beginsFirst beginsSecond length =>
      tidy.entry_unique one two beginsFirst beginsSecond length

end Triversion.Policy
