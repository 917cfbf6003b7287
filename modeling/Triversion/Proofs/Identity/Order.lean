import Triversion.Identity

/-!
The order of identities, said without the comparison that decides it.

Identities stand in the order of their projects, then kinds, then names, then scopes. The global
scope stands before all regions, and these before all zones. Texts stand in dictionary order.
-/

namespace Triversion

/-- One text stands before another in dictionary order, by the code points of its characters. -/
def TextBefore (a b : String) : Prop :=
  List.Lex (fun c d : Char => c.toNat < d.toNat) a.toList b.toList

namespace Ranked

/-- A pair stands before another by its first part or, if those are the same, by its second. -/
theorem precedes_pair_iff {α β : Type} [Ranked α] [Ranked β] {p q : α × β} :
    Precedes p q ↔ Precedes p.1 q.1 ∨ (p.1 = q.1 ∧ Precedes p.2 q.2) := by
  -- The second comparison is asked for exactly when the first one finds no difference.
  have opened : Precedes p q ↔ (rank p.1 q.1).then (rank p.2 q.2) = .lt := Iff.rfl
  rw [opened, Precedes, Precedes, ← rank_eq_iff p.1 q.1]
  cases rank p.1 q.1 <;> simp [Ordering.then]

/-- Texts are compared as they stand before each other. -/
theorem precedes_string_iff {a b : String} : Precedes a b ↔ TextBefore a b := by
  -- Both orders compare the first characters that differ, and a proper initial part comes first.
  have lists : ∀ s t : List Char,
      rankList s t = .lt ↔ List.Lex (fun c d : Char => c.toNat < d.toNat) s t := by
    intro s
    induction s with
    | nil =>
      intro t
      cases t with
      | nil => simp [rankList]
      | cons d t => exact ⟨fun _ => .nil, fun _ => rfl⟩
    | cons c s ih =>
      intro t
      cases t with
      | nil => simp [rankList]
      | cons d t =>
        have characters : Precedes c d ↔ c.toNat < d.toNat := rankNat_lt_iff
        rw [rankList_cons_lt_iff, List.cons_lex_cons_iff, characters, ih]
  exact lists a.toList b.toList

end Ranked

/-- One scope stands before another. -/
inductive Scope.Before : Scope → Scope → Prop where
  | global_regional {region : String} : Before .global (.regional region)
  | global_zonal {zone : String} : Before .global (.zonal zone)
  | regional_zonal {region zone : String} : Before (.regional region) (.zonal zone)
  | regional {region other : String} (less : TextBefore region other) :
    Before (.regional region) (.regional other)
  | zonal {zone other : String} (less : TextBefore zone other) :
    Before (.zonal zone) (.zonal other)

/-- One identity stands before another, by the first part in which they differ. -/
inductive Identity.Before (a b : Identity) : Prop where
  | project (less : TextBefore a.project b.project)
  | kind (project : a.project = b.project) (less : TextBefore a.kind b.kind)
  | name (project : a.project = b.project) (kind : a.kind = b.kind)
    (less : TextBefore a.name b.name)
  | scope (project : a.project = b.project) (kind : a.kind = b.kind) (name : a.name = b.name)
    (before : a.scope.Before b.scope)

/-- Scopes are compared as they stand before each other. -/
theorem Scope.precedes_iff {a b : Scope} : Ranked.Precedes a b ↔ a.Before b := by
  -- The comparison looks at the sort of scope first and at the text only within a sort.
  have opened : Ranked.Precedes a b ↔ Ranked.Precedes a.orderKey b.orderKey := Iff.rfl
  have numbers : ∀ m n : Nat, Ranked.Precedes m n ↔ m < n := fun _ _ => Ranked.rankNat_lt_iff
  rw [opened, Ranked.precedes_pair_iff, numbers, Ranked.precedes_string_iff]
  constructor
  · intro before
    cases a <;> cases b <;> simp [orderKey] at before
    · exact absurd before List.not_lex_nil
    · exact .global_regional
    · exact .global_zonal
    · exact .regional before
    · exact .regional_zonal
    · exact .zonal before
  · intro before
    cases before with
    | global_regional => exact .inl (by simp [orderKey])
    | global_zonal => exact .inl (by simp [orderKey])
    | regional_zonal => exact .inl (by simp [orderKey])
    | regional less => exact .inr ⟨rfl, less⟩
    | zonal less => exact .inr ⟨rfl, less⟩

/-- Identities are compared as they stand before each other. -/
theorem Identity.precedes_iff {a b : Identity} : Ranked.Precedes a b ↔ a.Before b := by
  have opened : Ranked.Precedes a b ↔ Ranked.Precedes a.orderKey b.orderKey := Iff.rfl
  simp only [opened, Ranked.precedes_pair_iff, orderKey, Ranked.precedes_string_iff,
    Scope.precedes_iff]
  constructor
  · rintro (less | ⟨project, less | ⟨kind, less | ⟨name, before⟩⟩⟩)
    · exact .project less
    · exact .kind project less
    · exact .name project kind less
    · exact .scope project kind name before
  · rintro (less | ⟨project, less⟩ | ⟨project, kind, less⟩ | ⟨project, kind, name, before⟩)
    · exact .inl less
    · exact .inr ⟨project, .inl less⟩
    · exact .inr ⟨project, .inr ⟨kind, .inl less⟩⟩
    · exact .inr ⟨project, .inr ⟨kind, .inr ⟨name, before⟩⟩⟩

end Triversion
