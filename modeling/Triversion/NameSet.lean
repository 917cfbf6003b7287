import Triversion.Ranked

/-! Sets kept as ascending lists without repetition. -/

namespace Triversion.NameSet

variable {α : Type}

/-- Adds a member at its place; a member that is there already stays once. -/
def add [Ranked α] (a : α) : List α → List α
  | [] => [a]
  | b :: rest =>
    match Ranked.rank a b with
    | .lt => a :: b :: rest
    | .eq => b :: rest
    | .gt => b :: add a rest

/-- Takes a member out. -/
def remove [DecidableEq α] (a : α) (members : List α) : List α :=
  members.filter fun b => b ≠ a

/-- The set of the things in a list. -/
def ofList [Ranked α] (things : List α) : List α :=
  things.foldl (fun members a => add a members) []

/-- Every member stands strictly before all that follow it. -/
def Ascending [Ranked α] (members : List α) : Prop :=
  members.Pairwise Ranked.Precedes

/-- Adding puts exactly one thing in. -/
@[simp] theorem mem_add [Ranked α] {a b : α} {members : List α} :
    b ∈ add a members ↔ b = a ∨ b ∈ members := by
  -- A member that is there already is not put in again, which changes no membership.
  induction members with
  | nil => simp [add]
  | cons c rest ih =>
    rw [add]
    split
    · simp
    · next same =>
      obtain rfl := (Ranked.rank_eq_iff a c).1 same
      simp
    · simp only [List.mem_cons, ih]
      constructor
      · rintro (rfl | rfl | inside)
        · exact .inr (.inl rfl)
        · exact .inl rfl
        · exact .inr (.inr inside)
      · rintro (rfl | rfl | inside)
        · exact .inr (.inl rfl)
        · exact .inl rfl
        · exact .inr (.inr inside)

/-- Adding keeps the members ascending. -/
theorem ascending_add [Ranked α] {a : α} {members : List α} (sorted : Ascending members) :
    Ascending (add a members) := by
  -- The new member stands behind all it passed and in front of the one it stopped at.
  induction members with
  | nil => simp [add, Ascending]
  | cons c rest ih =>
    obtain ⟨first, later⟩ := List.pairwise_cons.1 sorted
    rw [add]
    split
    · next before =>
      refine List.pairwise_cons.2 ⟨fun b inside => ?_, sorted⟩
      rcases List.mem_cons.1 inside with rfl | inside
      · exact before
      · exact Ranked.Precedes.trans before (first b inside)
    · exact sorted
    · next behind =>
      refine List.pairwise_cons.2 ⟨fun b inside => ?_, ih later⟩
      rcases mem_add.1 inside with rfl | inside
      · exact Ranked.rank_gt_iff.1 behind
      · exact first b inside

/-- Taking a member out keeps the others ascending. -/
theorem ascending_remove [Ranked α] [DecidableEq α] {a : α} {members : List α}
    (sorted : Ascending members) : Ascending (remove a members) :=
  List.Pairwise.filter _ sorted

end Triversion.NameSet
