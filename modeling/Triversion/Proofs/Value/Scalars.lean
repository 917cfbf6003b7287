import Triversion.Codec
import Triversion.Proofs.Value.At

/-!
Scalars at routes of names.

A codec keeps scalars if what it accepts is written again, apart from keys that it does not know.
-/

namespace Triversion

/-- A number counted in units of two to the power of -1074, of which every number is a multiple. -/
def Number.units : Number → Int
  | .whole i => i * twoTo 1074
  | .float d => (if d.negative then -1 else 1) * (d.significand * twoTo d.scale : Nat)

namespace Value

/-- Whether the value is a truth value, a number or a text. -/
def isScalar : Value → Bool
  | .bool _ => true
  | .number _ => true
  | .string _ => true
  | _ => false

/-- Scalars of one kind that say the same; of numbers only the value counts, not the sort. -/
def EqualsScalar : Value → Value → Prop
  | .bool a, .bool b => a = b
  | .number a, .number b => a.units = b.units
  | .string a, .string b => a = b
  | _, _ => False

/-- The part that a route of names leads to, through objects alone. -/
def under? : List String → Value → Option Value
  | [], v => some v
  | name :: names, .object fields => (Keyed.get? name fields).bind (under? names)
  | _ :: _, _ => none

/-- A scalar that carries information stands at a route of names. -/
structure HasScalar (v : Value) (names : List String) (scalar : Value) : Prop where
  isScalar : scalar.isScalar = true
  filled : scalar.isBlank = false
  found : v.under? names = some scalar

/-- A scalar of the same value stands at a route of names. -/
def Finds (v : Value) (names : List String) (scalar : Value) : Prop :=
  ∃ found, v.under? names = some found ∧ found.EqualsScalar scalar

/-- Objects stand along a route of names, up to one that lacks the next name. -/
def Lacks (v : Value) (names : List String) : Prop :=
  ∃ before name after fields, names = before ++ name :: after ∧
    v.under? before = some (.object fields) ∧ Keyed.get? name fields = none

theorem EqualsScalar.refl {scalar : Value} (isScalar : scalar.isScalar = true) :
    scalar.EqualsScalar scalar := by
  cases scalar <;> simp_all [Value.isScalar, EqualsScalar]

theorem under?_append (before after : List String) (v : Value) :
    v.under? (before ++ after) = (v.under? before).bind (under? after) := by
  -- A name that leads nowhere ends both routes.
  induction before generalizing v with
  | nil => rfl
  | cons name rest ih =>
    cases v with
    | object fields =>
      simp only [List.cons_append, under?, Option.bind_assoc]
      exact Option.bind_congr fun part _ => ih part
    | _ => rfl

namespace HasScalar

variable {v scalar : Value} {names : List String}

/-- A scalar of an object stands behind one of its names. -/
theorem object_iff {fields : Fields} {name : String} :
    (Value.object fields).HasScalar (name :: names) scalar ↔
      ∃ part, Keyed.get? name fields = some part ∧ part.HasScalar names scalar := by
  constructor
  · intro has
    obtain ⟨isScalar, filled, found⟩ := has
    obtain ⟨part, first, later⟩ := Option.bind_eq_some_iff.1 found
    exact ⟨part, first, isScalar, filled, later⟩
  · intro inside
    obtain ⟨part, first, isScalar, filled, later⟩ := inside
    exact ⟨isScalar, filled, Option.bind_eq_some_iff.2 ⟨part, first, later⟩⟩

/-- A value with a scalar is the scalar itself, or an object with the scalar behind a name. -/
theorem cases (has : v.HasScalar names scalar) :
    (names = [] ∧ v = scalar) ∨
      ∃ fields name rest part, v = .object fields ∧ names = name :: rest ∧
        Keyed.get? name fields = some part ∧ part.HasScalar rest scalar := by
  obtain ⟨isScalar, filled, found⟩ := has
  match names, v with
  | [], v => exact .inl ⟨rfl, Option.some.inj found⟩
  | name :: rest, .object fields =>
    obtain ⟨part, first, inside⟩ := object_iff.1 ⟨isScalar, filled, found⟩
    exact .inr ⟨fields, name, rest, part, rfl, rfl, first, inside⟩
  | _ :: _, .null | _ :: _, .bool _ | _ :: _, .number _ | _ :: _, .string _ | _ :: _, .array _ =>
    simp [under?] at found

/-- A scalar of an object stands behind some name of it. -/
theorem of_object {fields : Fields} (has : (Value.object fields).HasScalar names scalar) :
    ∃ name rest part, names = name :: rest ∧ Keyed.get? name fields = some part ∧
      part.HasScalar rest scalar := by
  obtain ⟨_, rfl⟩ | ⟨_, name, rest, part, same, split, found, inside⟩ := has.cases
  · have isScalar := has.isScalar
    simp [Value.isScalar] at isScalar
  · obtain rfl := Value.object.inj same
    exact ⟨name, rest, part, split, found, inside⟩

/-- There is no scalar inside a sequence. -/
theorem not_array {items : List Value} : ¬ (Value.array items).HasScalar names scalar := by
  intro has
  rcases has.cases with ⟨_, rfl⟩ | ⟨_, _, _, _, isObject, _⟩
  · have isScalar := has.isScalar
    simp [Value.isScalar] at isScalar
  · simp at isObject

/-- What has a scalar that carries information carries information itself. -/
theorem not_blank (has : v.HasScalar names scalar) : v.isBlank = false := by
  -- Blankness of an object would pass on to the part on the way to the scalar.
  induction names generalizing v with
  | nil => exact Option.some.inj has.found ▸ has.filled
  | cons name rest ih =>
    rcases has.cases with ⟨names, _⟩ | ⟨fields, _, _, part, rfl, same, first, inside⟩
    · simp at names
    · obtain ⟨rfl, rfl⟩ := List.cons.inj same
      cases all : (Value.object fields).isBlank with
      | false => rfl
      | true =>
        have step : (Value.object fields).step? (.field _) = some part := first
        have blank := isBlank_of_step? all step
        rw [ih inside] at blank
        exact Bool.noConfusion blank

end HasScalar

end Value

/-- A route that spells names leads where the names lead. -/
def Path.Spells (path : Path) (names : List String) : Prop :=
  path.map Segment.name? = names.map some

theorem Path.Spells.at?_eq {path : Path} {names : List String} (spells : path.Spells names)
    (v : Value) : v.at? path = v.under? names := by
  -- Fields and keys look up a name in an object alike, and positions spell no name.
  induction path generalizing names v with
  | nil =>
    cases names with
    | nil => rfl
    | cons _ _ => simp [Path.Spells] at spells
  | cons segment rest ih =>
    cases names with
    | nil => simp [Path.Spells] at spells
    | cons name names =>
      obtain ⟨named, later⟩ := List.cons.inj spells
      have later : Path.Spells rest names := later
      have lookup : v.at? (segment :: rest) = v.at? (.field name :: rest) := by
        cases segment with
        | index i => simp [Segment.name?] at named
        | field other => rw [show other = name from Option.some.inj named]
        | key k =>
          rw [show k = name from Option.some.inj named]
          cases v <;> rfl
      rw [lookup]
      cases v with
      | object fields => exact Option.bind_congr fun part _ => ih later part
      | _ => rfl

/--
A type that keeps scalars.

Whatever object it accepts, each scalar of it that carries information is written again with the
same value, or stands behind a name that the written object lacks.
-/
def Codec.KeepsScalars {α : Type} (codec : Codec α) : Prop :=
  ∀ fields settled, (Value.object fields).WellFormed →
    codec.roundTrip (.object fields) = some settled →
    ∀ names scalar, (Value.object fields).HasScalar names scalar →
      settled.Finds names scalar ∨ settled.Lacks names

/-- A type whose objects are written as maps, with keys that are apart and in order. -/
def Codec.WritesWellFormed {α : Type} (codec : Codec α) : Prop :=
  ∀ x v, codec.encode x = .ok v → v.WellFormed

end Triversion
