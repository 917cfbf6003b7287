/-! Total orders that call only equal things equal, and the ways to build one from another. -/

namespace Triversion

/-- A three-way comparison that orders all things strictly and calls only equal things equal. -/
class Ranked (α : Type) where
  /-- Where the first thing stands relative to the second. -/
  rank : α → α → Ordering
  rank_eq_iff : ∀ a b, rank a b = .eq ↔ a = b
  rank_swap : ∀ a b, (rank a b).swap = rank b a
  rank_trans : ∀ {a b c}, rank a b = .lt → rank b c = .lt → rank a c = .lt

namespace Ranked

/-- One thing stands strictly before another. -/
def Precedes {α : Type} [Ranked α] (a b : α) : Prop :=
  rank a b = .lt

instance {α : Type} [Ranked α] (a b : α) : Decidable (Precedes a b) :=
  inferInstanceAs (Decidable (rank a b = .lt))

/-- Everything compares as equal to itself. -/
@[simp] theorem rank_self {α : Type} [Ranked α] (a : α) : rank a a = .eq :=
  (rank_eq_iff a a).2 rfl

/-- Nothing stands before itself. -/
theorem not_precedes_self {α : Type} [Ranked α] (a : α) : ¬ Precedes a a := by
  -- A thing and itself compare as equal, never as earlier.
  simp [Precedes]

/-- Standing before is transitive. -/
theorem Precedes.trans {α : Type} [Ranked α] {a b c : α}
    (left : Precedes a b) (right : Precedes b c) : Precedes a c :=
  rank_trans left right

/-- A later first argument is the same statement read from the other side. -/
theorem rank_gt_iff {α : Type} [Ranked α] {a b : α} : rank a b = .gt ↔ Precedes b a := by
  -- Swapping the arguments turns earlier into later and later into earlier.
  rw [Precedes, ← rank_swap a b]
  cases rank a b <;> simp

/-- Two things are equal, or one of them stands before the other. -/
theorem trichotomy {α : Type} [Ranked α] (a b : α) : Precedes a b ∨ a = b ∨ Precedes b a := by
  -- Each of the three answers of the comparison settles one of the three cases.
  cases order : rank a b with
  | lt => exact .inl order
  | eq => exact .inr (.inl ((rank_eq_iff a b).1 order))
  | gt => exact .inr (.inr (rank_gt_iff.1 order))

/-- Natural numbers stand in their usual order. -/
def rankNat (a b : Nat) : Ordering :=
  if a < b then .lt else if b < a then .gt else .eq

/-- The numeric comparison says exactly which of the three cases holds. -/
theorem rankNat_lt_iff {a b : Nat} : rankNat a b = .lt ↔ a < b := by
  -- The answer is earlier on the first branch only.
  rw [rankNat]
  by_cases less : a < b
  · simp [less]
  · by_cases more : b < a
    · simp [less, more]
    · simp [less, more]

instance : Ranked Nat where
  rank := rankNat
  rank_eq_iff a b := by
    unfold rankNat
    split
    · simp; omega
    · split
      · simp; omega
      · simp; omega
  rank_swap a b := by
    -- The swapped comparison asks the same two questions in the other order.
    unfold rankNat
    by_cases less : a < b
    · rw [if_pos less, if_neg (by omega), if_pos less]; rfl
    · by_cases more : b < a
      · rw [if_neg less, if_pos more, if_pos more]; rfl
      · rw [if_neg less, if_neg more, if_neg more, if_neg less]; rfl
  rank_trans left right := by
    rw [rankNat_lt_iff] at *
    omega

/-- A thing is ordered by a key that determines it. -/
@[reducible] def onKey {α β : Type} [Ranked β] (key : α → β)
    (determines : ∀ a b, key a = key b → a = b) : Ranked α where
  rank a b := rank (key a) (key b)
  rank_eq_iff a b := by
    rw [rank_eq_iff]
    exact ⟨determines a b, congrArg key⟩
  rank_swap a b := rank_swap (key a) (key b)
  rank_trans left right := rank_trans left right

/-- Sequences compare item by item, and a proper initial part comes first. -/
def rankList {α : Type} [Ranked α] : List α → List α → Ordering
  | [], [] => .eq
  | [], _ :: _ => .lt
  | _ :: _, [] => .gt
  | a :: s, b :: t =>
    match rank a b with
    | .eq => rankList s t
    | order => order

/-- Unequal heads decide the comparison of two sequences. -/
theorem rankList_cons {α : Type} [Ranked α] (a b : α) (s t : List α) :
    rankList (a :: s) (b :: t) = (rank a b).then (rankList s t) := by
  -- Only equal heads let the comparison go on.
  simp only [rankList]
  cases rank a b <;> rfl

/-- One nonempty sequence stands before another through its head or, past equal heads, its rest. -/
theorem rankList_cons_lt_iff {α : Type} [Ranked α] {a b : α} {s t : List α} :
    rankList (a :: s) (b :: t) = .lt ↔ Precedes a b ∨ (a = b ∧ rankList s t = .lt) := by
  -- The comparison of the rests is asked for exactly when the heads are equal.
  rw [rankList_cons, Precedes, ← rank_eq_iff a b]
  cases rank a b <;> simp [Ordering.then]

instance {α : Type} [Ranked α] : Ranked (List α) where
  rank := rankList
  rank_eq_iff s t := by
    induction s generalizing t with
    | nil => cases t <;> simp [rankList]
    | cons a s ih =>
      cases t with
      | nil => simp [rankList]
      | cons b t =>
        rw [rankList_cons, List.cons.injEq, ← rank_eq_iff a b, ← ih t]
        cases rank a b <;> simp [Ordering.then]
  rank_swap s t := by
    -- Swapping the sequences swaps every comparison of heads on the way.
    induction s generalizing t with
    | nil => cases t <;> rfl
    | cons a s ih =>
      cases t with
      | nil => rfl
      | cons b t =>
        rw [rankList_cons, rankList_cons, ← rank_swap a b, ← ih t]
        cases rank a b <;> rfl
  rank_trans {s t u} left right := by
    induction s generalizing t u with
    | nil =>
      -- Nothing stands before the empty sequence, so the last one has a head.
      cases u with
      | nil => cases t <;> simp [rankList] at left right
      | cons c u => rfl
    | cons a s ih =>
      cases t with
      | nil => simp [rankList] at left
      | cons b t =>
        cases u with
        | nil => simp [rankList] at right
        | cons c u =>
          rw [rankList_cons_lt_iff] at left right ⊢
          -- Heads that decide either comparison decide the one across, and else the rests do.
          rcases left with before | ⟨rfl, left⟩
          · rcases right with after | ⟨rfl, _⟩
            · exact .inl (before.trans after)
            · exact .inl before
          · rcases right with after | ⟨rfl, right⟩
            · exact .inl after
            · exact .inr ⟨rfl, ih left right⟩

instance {α β : Type} [Ranked α] [Ranked β] : Ranked (α × β) where
  rank p q := (rank p.1 q.1).then (rank p.2 q.2)
  rank_eq_iff p q := by
    rw [Prod.ext_iff, ← rank_eq_iff p.1 q.1, ← rank_eq_iff p.2 q.2]
    cases rank p.1 q.1 <;> simp [Ordering.then]
  rank_swap p q := by
    rw [← rank_swap p.1 q.1, ← rank_swap p.2 q.2]
    cases rank p.1 q.1 <;> rfl
  rank_trans {p q r} left right := by
    -- One pair stands before another through its first part or, past equal first parts, its second.
    have split : ∀ x y : α × β, (rank x.1 y.1).then (rank x.2 y.2) = .lt ↔
        Precedes x.1 y.1 ∨ (x.1 = y.1 ∧ Precedes x.2 y.2) := by
      intro x y
      rw [Precedes, Precedes, ← rank_eq_iff x.1 y.1]
      cases rank x.1 y.1 <;> simp [Ordering.then]
    rw [split] at left right ⊢
    rcases left with before | ⟨same, left⟩
    · rcases right with after | ⟨again, _⟩
      · exact .inl (before.trans after)
      · exact .inl (again ▸ before)
    · rcases right with after | ⟨again, right⟩
      · exact .inl (same ▸ after)
      · exact .inr ⟨same.trans again, left.trans right⟩

instance : Ranked Char :=
  -- Characters stand in the order of their code points, which is also that of their encoded bytes.
  onKey Char.toNat fun _ _ same => Char.ext (UInt32.toNat_inj.1 same)

instance : Ranked String :=
  onKey String.toList fun _ _ same => String.toList_inj.1 same

end Ranked

end Triversion
