import Triversion.NameSet

/-! Sets of names: what is there already can be added again, and a set is the set of its members. -/

namespace Triversion.NameSet

variable {α : Type} [Ranked α]

/-- Adding a member that is there already changes nothing. -/
theorem add_of_mem {a : α} {members : List α} (sorted : Ascending members) (there : a ∈ members) :
    add a members = members := by
  induction members with
  | nil => simp at there
  | cons b rest ih =>
    obtain ⟨first, later⟩ := List.pairwise_cons.1 sorted
    rcases List.mem_cons.1 there with rfl | inside
    · simp [add]
    · -- A member further on stands behind the first one, so the search passes it.
      have behind : Ranked.rank a b = .gt := Ranked.rank_gt_iff.2 (first a inside)
      simp [add, behind, ih later inside]

/-- A thing behind all members is added at the end. -/
theorem add_of_last {a : α} {members : List α} (last : ∀ b ∈ members, Ranked.Precedes b a) :
    add a members = members ++ [a] := by
  induction members with
  | nil => rfl
  | cons b rest ih =>
    have behind : Ranked.rank a b = .gt := Ranked.rank_gt_iff.2 (last b List.mem_cons_self)
    simp [add, behind, ih fun c inside => last c (List.mem_cons_of_mem _ inside)]

/-- The set of the things in a list has these things as its members. -/
@[simp] theorem mem_ofList {a : α} {things : List α} : a ∈ ofList things ↔ a ∈ things := by
  -- Each addition puts one thing in, whatever was added before.
  have grow : ∀ (things members : List α),
      a ∈ things.foldl (fun members a => add a members) members ↔ a ∈ members ∨ a ∈ things := by
    intro things
    induction things with
    | nil => simp
    | cons b rest ih =>
      intro members
      rw [List.foldl_cons, ih, mem_add, List.mem_cons, or_assoc, or_left_comm]
  exact (grow things []).trans (by simp)

/-- Things added one after another are ascending. -/
theorem ascending_ofList (things : List α) : Ascending (ofList things) := by
  -- Each addition keeps an ascending set ascending, whatever was added before.
  have grow : ∀ (things members : List α), Ascending members →
      Ascending (things.foldl (fun members a => add a members) members) := by
    intro things
    induction things with
    | nil => exact fun _ sorted => sorted
    | cons a rest ih => exact fun members sorted => ih _ (ascending_add sorted)
  exact grow things [] List.Pairwise.nil

/-- Ascending things are the set of themselves. -/
theorem ofList_of_ascending {things : List α} (sorted : Ascending things) :
    ofList things = things := by
  -- Each thing stands behind all that were added before it.
  have grow : ∀ (things members : List α), Ascending (members ++ things) →
      things.foldl (fun members a => add a members) members = members ++ things := by
    intro things
    induction things with
    | nil => simp
    | cons a rest ih =>
      intro members sorted
      have last : ∀ b ∈ members, Ranked.Precedes b a := fun b inside =>
        (List.pairwise_append.1 sorted).2.2 b inside a List.mem_cons_self
      have moved : Ascending ((members ++ [a]) ++ rest) := by simpa using sorted
      rw [List.foldl_cons, add_of_last last, ih _ moved]
      simp
  exact grow things [] sorted

end Triversion.NameSet
