import Triversion.Keyed
import Triversion.Numeric.Double

/-! Values: the trees of scalars, sequences and objects that every representation is written as. -/

namespace Triversion

/-- A number is a whole number or a binary64 number, and the two sorts never mix. -/
inductive Number where
  | whole (i : Int)
  | float (d : Double)
  deriving DecidableEq

namespace Number

/-- The smallest whole number that a value can hold. -/
def wholeMin : Int :=
  -twoTo 63

/-- The largest whole number that a value can hold. -/
def wholeMax : Int :=
  twoTo 64 - 1

/-- Whether the number is of the binary64 sort. -/
def isFloat : Number → Bool
  | .whole _ => false
  | .float _ => true

/-- Zero of either sort and either sign. -/
def isZero : Number → Bool
  | .whole i => i == 0
  | .float d => d.isZero

/-- Zero of the same sort. -/
def blank : Number → Number
  | .whole _ => .whole 0
  | .float _ => .float .zero

/-- Numbers agree within their sort, and the two signs of zero agree. -/
def agrees : Number → Number → Bool
  | .whole a, .whole b => a = b
  -- One is not the same number in both sorts.
  | .float a, .float b => a.agrees b
  | _, _ => false

end Number

/-- A tree of values; the keys of an object ascend. -/
inductive Value where
  | null
  | bool (b : Bool)
  | number (n : Number)
  | string (s : String)
  | array (items : List Value)
  | object (fields : List (String × Value))

/-- The fields of an object in ascending order of their names. -/
abbrev Fields := List (String × Value)

namespace Value

instance : Inhabited Value :=
  ⟨.null⟩

/-- A whole number as a value. -/
def whole (i : Int) : Value :=
  .number (.whole i)

mutual
/-- Structural equality of values. -/
def same : Value → Value → Bool
  | .null, .null => true
  | .bool a, .bool b => a = b
  | .number a, .number b => a = b
  | .string a, .string b => a = b
  | .array a, .array b => sameItems a b
  | .object a, .object b => sameFields a b
  | _, _ => false

/-- Structural equality of sequences, item by item. -/
def sameItems : List Value → List Value → Bool
  | [], [] => true
  | a :: s, b :: t => same a b && sameItems s t
  | _, _ => false

/-- Structural equality of objects, field by field. -/
def sameFields : List (String × Value) → List (String × Value) → Bool
  | [], [] => true
  | (m, a) :: s, (n, b) :: t => m = n && same a b && sameFields s t
  | _, _ => false
end

mutual
/-- The structural comparison accepts exactly equal values. -/
theorem same_iff : ∀ a b : Value, same a b = true ↔ a = b
  | .null, b => by cases b <;> simp [same]
  | .bool _, b => by cases b <;> simp [same]
  | .number _, b => by cases b <;> simp [same]
  | .string _, b => by cases b <;> simp [same]
  | .array s, b => by cases b <;> simp [same, sameItems_iff s]
  | .object s, b => by cases b <;> simp [same, sameFields_iff s]

/-- The comparison of sequences accepts exactly equal ones. -/
theorem sameItems_iff : ∀ s t : List Value, sameItems s t = true ↔ s = t
  | [], t => by cases t <;> simp [sameItems]
  | a :: s, t => by cases t <;> simp [sameItems, same_iff a, sameItems_iff s]

/-- The comparison of objects accepts exactly equal ones. -/
theorem sameFields_iff : ∀ s t : List (String × Value), sameFields s t = true ↔ s = t
  | [], t => by cases t <;> simp [sameFields]
  | (m, a) :: s, t => by
    cases t with
    | nil => simp [sameFields]
    | cons field t =>
      obtain ⟨n, b⟩ := field
      simp [sameFields, same_iff a, sameFields_iff s]
end

instance : DecidableEq Value := fun a b =>
  decidable_of_iff (same a b = true) (same_iff a b)

mutual
/-- Equality of what two values say, where the two signs of zero agree. -/
def agrees : Value → Value → Bool
  | .null, .null => true
  | .bool a, .bool b => a = b
  | .number a, .number b => a.agrees b
  | .string a, .string b => a = b
  | .array a, .array b => agreesItems a b
  | .object a, .object b => agreesFields a b
  | _, _ => false

/-- Sequences agree item by item. -/
def agreesItems : List Value → List Value → Bool
  | [], [] => true
  | a :: s, b :: t => agrees a b && agreesItems s t
  | _, _ => false

/-- Objects agree field by field. -/
def agreesFields : List (String × Value) → List (String × Value) → Bool
  | [], [] => true
  | (m, a) :: s, (n, b) :: t => m = n && agrees a b && agreesFields s t
  | _, _ => false
end

mutual
/-- A value that carries no information: null, false, zero, empty, or an object of such values. -/
def isBlank : Value → Bool
  | .null => true
  | .bool b => !b
  | .number n => n.isZero
  | .string s => s.isEmpty
  -- A sequence says something as soon as it has items, even if the items say nothing.
  | .array items => items.isEmpty
  | .object fields => allBlank fields

/-- Whether no field carries information. -/
def allBlank : List (String × Value) → Bool
  | [] => true
  | (_, v) :: rest => v.isBlank && allBlank rest
end

mutual
/-- The value of the same shape that carries no information. -/
def blank : Value → Value
  | .null => .null
  | .bool _ => .bool false
  | .number n => .number n.blank
  | .string _ => .string ""
  | .array _ => .array []
  | .object fields => .object (blankFields fields)

/-- The same fields, each without information. -/
def blankFields : List (String × Value) → List (String × Value)
  | [] => []
  | (name, v) :: rest => (name, v.blank) :: blankFields rest
end

mutual
/-- The number of values in the tree. -/
def size : Value → Nat
  | .null => 1
  | .bool _ => 1
  | .number _ => 1
  | .string _ => 1
  | .array items => 1 + sizeItems items
  | .object fields => 1 + sizeFields fields

/-- The number of values in a sequence of trees. -/
def sizeItems : List Value → Nat
  | [] => 0
  | v :: rest => v.size + sizeItems rest

/-- The number of values in the fields of an object. -/
def sizeFields : List (String × Value) → Nat
  | [] => 0
  | (_, v) :: rest => v.size + sizeFields rest
end

mutual
/-- The number of values on the longest way down. -/
def depth : Value → Nat
  | .null => 1
  | .bool _ => 1
  | .number _ => 1
  | .string _ => 1
  | .array items => 1 + depthItems items
  | .object fields => 1 + depthFields fields

/-- The depth of the deepest item. -/
def depthItems : List Value → Nat
  | [] => 0
  | v :: rest => max v.depth (depthItems rest)

/-- The depth of the deepest field. -/
def depthFields : List (String × Value) → Nat
  | [] => 0
  | (_, v) :: rest => max v.depth (depthFields rest)
end

mutual
/-- Every object in the tree has ascending keys. -/
def WellFormed : Value → Prop
  | .null => True
  | .bool _ => True
  | .number _ => True
  | .string _ => True
  | .array items => WellFormedItems items
  | .object fields => Keyed.Ascending fields ∧ WellFormedFields fields

/-- Every item is well formed. -/
def WellFormedItems : List Value → Prop
  | [] => True
  | v :: rest => v.WellFormed ∧ WellFormedItems rest

/-- Every field holds a well formed value. -/
def WellFormedFields : List (String × Value) → Prop
  | [] => True
  | (_, v) :: rest => v.WellFormed ∧ WellFormedFields rest
end

/-- The word for what a value is. -/
def kind : Value → String
  | .null => "null"
  | .bool _ => "bool"
  | .number _ => "number"
  | .string _ => "string"
  | .array _ => "sequence"
  | .object _ => "struct"

/-- Whether the value is null. -/
def isNull : Value → Bool
  | .null => true
  | _ => false

/-- Whether the value is a string. -/
def isString : Value → Bool
  | .string _ => true
  | _ => false

/-- Whether the value is a sequence. -/
def isArray : Value → Bool
  | .array _ => true
  | _ => false

/-- Whether the value is an object. -/
def isObject : Value → Bool
  | .object _ => true
  | _ => false

/-- The text of a string value. -/
def string? : Value → Option String
  | .string s => some s
  | _ => none

/-- An object holding the given fields, in their proper order. -/
def ofFields (fields : List (String × Value)) : Value :=
  .object (Keyed.ofList fields)

/-- A sequence of strings. -/
def strings (names : List String) : Value :=
  .array (names.map .string)

/-- A scalar can stand where one of its kind stands, but a float never where a whole number is. -/
def scalarFits : (there : Value) → (scalar : Value) → Bool
  | .bool _, .bool _ => true
  | .string _, .string _ => true
  | .number there, .number n => there.isFloat || !n.isFloat
  | _, _ => false

end Value

end Triversion
