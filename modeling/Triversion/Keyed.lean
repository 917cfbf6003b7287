import Triversion.Ranked

/-! Association lists kept in ascending key order: the shape of every object and label set. -/

namespace Triversion.Keyed

variable {κ α : Type}

/-- The first value stored under a key. -/
def get? [DecidableEq κ] (key : κ) : List (κ × α) → Option α
  | [] => none
  | (k, a) :: rest => if k = key then some a else get? key rest

/-- Whether something is stored under a key. -/
def has [DecidableEq κ] (key : κ) (entries : List (κ × α)) : Bool :=
  (get? key entries).isSome

/-- Stores a value at the place of its key, in front of the first larger key. -/
def put [Ranked κ] (key : κ) (a : α) : List (κ × α) → List (κ × α)
  | [] => [(key, a)]
  | (k, old) :: rest =>
    -- A larger key ends the search, an equal one is replaced, a smaller one is passed.
    match Ranked.rank key k with
    | .lt => (key, a) :: (k, old) :: rest
    | .eq => (key, a) :: rest
    | .gt => (k, old) :: put key a rest

/-- Removes the first entry under a key. -/
def erase [DecidableEq κ] (key : κ) : List (κ × α) → List (κ × α)
  | [] => []
  | (k, a) :: rest => if k = key then rest else (k, a) :: erase key rest

/-- Applies a function to the first value stored under a key. -/
def modify [DecidableEq κ] (key : κ) (f : α → α) : List (κ × α) → List (κ × α)
  | [] => []
  | (k, a) :: rest => if k = key then (k, f a) :: rest else (k, a) :: modify key f rest

/-- Stores entries one after another, so that the last value of a repeated key stays. -/
def ofList [Ranked κ] (entries : List (κ × α)) : List (κ × α) :=
  entries.foldl (fun stored entry => put entry.1 entry.2 stored) []

/-- Every key stands strictly before all keys that follow it. -/
def Ascending [Ranked κ] (entries : List (κ × α)) : Prop :=
  entries.Pairwise fun left right => Ranked.Precedes left.1 right.1

instance [Ranked κ] (entries : List (κ × α)) : Decidable (Ascending entries) :=
  inferInstanceAs (Decidable (List.Pairwise _ entries))

/-- A stored value is found under its key. -/
@[simp] theorem get?_put_self [Ranked κ] [DecidableEq κ] (key : κ) (a : α)
    (entries : List (κ × α)) : get? key (put key a entries) = some a := by
  -- The induction follows the search for the place of the key.
  induction entries with
  | nil => simp [put, get?]
  | cons entry rest ih =>
    obtain ⟨k, old⟩ := entry
    rw [put]
    split
    · simp [get?]
    · simp [get?]
    · next later =>
      -- A smaller key in front is a different key.
      have different : k ≠ key := by
        rintro rfl
        simp at later
      simp [get?, different, ih]

/-- Storing under one key leaves all other keys as they were. -/
theorem get?_put_of_ne [Ranked κ] [DecidableEq κ] {key other : κ} (different : key ≠ other)
    (a : α) (entries : List (κ × α)) : get? other (put key a entries) = get? other entries := by
  -- However the key is placed, the search for the other key walks over it.
  induction entries with
  | nil => simp [put, get?, different]
  | cons entry rest ih =>
    obtain ⟨k, old⟩ := entry
    rw [put]
    split
    · simp [get?, different]
    · next same =>
      obtain rfl := (Ranked.rank_eq_iff key k).1 same
      simp [get?, different]
    · simp [get?, ih]

/-- Storing adds no entry but its own. -/
theorem mem_put [Ranked κ] {key : κ} {a : α} {entry : κ × α} {entries : List (κ × α)}
    (stored : entry ∈ put key a entries) : entry = (key, a) ∨ entry ∈ entries := by
  -- Every entry of the result is the new one or was passed on the way.
  induction entries with
  | nil => simpa [put] using stored
  | cons head rest ih =>
    obtain ⟨k, old⟩ := head
    rw [put] at stored
    split at stored
    · simpa using stored
    · rcases List.mem_cons.1 stored with rfl | inside
      · exact .inl rfl
      · exact .inr (List.mem_cons_of_mem _ inside)
    · rcases List.mem_cons.1 stored with rfl | inside
      · exact .inr List.mem_cons_self
      · exact (ih inside).imp id (List.mem_cons_of_mem _)

/-- Storing keeps the keys ascending. -/
theorem ascending_put [Ranked κ] {key : κ} {a : α} {entries : List (κ × α)}
    (sorted : Ascending entries) : Ascending (put key a entries) := by
  -- The new key stands behind the keys it passed and in front of the one it stopped at.
  induction entries with
  | nil => simp [put, Ascending]
  | cons head rest ih =>
    obtain ⟨k, old⟩ := head
    obtain ⟨first, later⟩ := List.pairwise_cons.1 sorted
    rw [put]
    split
    · next before =>
      refine List.pairwise_cons.2 ⟨fun entry inside => ?_, List.pairwise_cons.2 ⟨first, later⟩⟩
      rcases List.mem_cons.1 inside with rfl | inside
      · exact before
      · exact Ranked.Precedes.trans before (first entry inside)
    · next same =>
      obtain rfl := (Ranked.rank_eq_iff key k).1 same
      exact List.pairwise_cons.2 ⟨first, later⟩
    · next behind =>
      refine List.pairwise_cons.2 ⟨fun entry inside => ?_, ih later⟩
      rcases mem_put inside with rfl | inside
      · exact Ranked.rank_gt_iff.1 behind
      · exact first entry inside

/-- Storing entries one after another ends in ascending keys. -/
theorem ascending_ofList [Ranked κ] (entries : List (κ × α)) : Ascending (ofList entries) := by
  -- Each step keeps ascending keys ascending, whatever was stored before.
  have grow : ∀ (entries stored : List (κ × α)), Ascending stored →
      Ascending (entries.foldl (fun stored entry => put entry.1 entry.2 stored) stored) := by
    intro entries
    induction entries with
    | nil => exact fun _ sorted => sorted
    | cons entry rest ih => exact fun stored sorted => ih _ (ascending_put sorted)
  exact grow entries [] List.Pairwise.nil

end Triversion.Keyed
