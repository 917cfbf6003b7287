import Triversion.Codec
import Triversion.Numeric.Digits

/-! Shapes describe representation types by the values they accept and write. -/

namespace Triversion

/-- When a field is left out of the written form. -/
inductive Omission where
  | never
  | whenNull
  | whenEmpty
  deriving DecidableEq

/-- What a record does with keys it does not declare. -/
inductive UnknownKeys where
  | ignored
  | rejected
  | kept
  deriving DecidableEq

/-- What a record does about a declared field that is not given. -/
inductive MissingFields where
  | initial
  | rejected
  deriving DecidableEq

/-- The conventions of a record. -/
structure RecordRule where
  unknown : UnknownKeys
  missing : MissingFields
  /-- Whether a sequence of field values in declaration order is accepted as well. -/
  positional : Bool

/-- The conventions of one field. -/
structure FieldRule where
  name : String
  /-- The value in the default record. -/
  initial : Value
  omission : Omission
  /-- The value that a rebuild always sets, without reading the field. -/
  pinned : Option Value

/-- A description of a representation type. -/
inductive Shape where
  | bool
  | string
  /-- Whole numbers between two bounds, both included. -/
  | integer (low high : Int)
  /-- Binary64 numbers; whole numbers are converted. -/
  | float
  /-- Null alone. -/
  | unit
  /-- Any value at all. -/
  | any
  /-- One of the given words, the first one being the default. -/
  | choice (words : List String)
  /-- Null or a value of the shape. -/
  | optional (shape : Shape)
  | list (shape : Shape)
  /-- Objects whose values have the shape; keys may have to be decimal numbers of 32 bits. -/
  | map (decimalKeys : Bool) (shape : Shape)
  | tuple (shapes : List Shape)
  | record (rule : RecordRule) (fields : List (FieldRule × Shape))

/-- The plain decimal form of a number below 2 ^ 32. -/
def isDecimalKey (key : String) : Bool :=
  let chars := key.toList
  !chars.isEmpty && chars.all Char.isDigit && (chars.head? != some '0' || chars.length == 1) &&
    digitsValue chars < twoTo 32

namespace FieldRule

/-- Whether a field value stays in the written form. -/
def keeps (rule : FieldRule) (v : Value) : Bool :=
  match rule.omission with
  | .never => true
  | .whenNull => !v.isNull
  | .whenEmpty => !(v.isArray && v.isBlank)

/-- The written entry of a field, if it stays in the written form. -/
def entry (rule : FieldRule) (v : Value) : Fields :=
  if rule.keeps v then [(rule.name, v)] else []

end FieldRule

namespace Shape

/-- A record as the fields of its default. -/
def initialFields (fields : List (FieldRule × Shape)) : Fields :=
  fields.flatMap fun field => field.1.entry field.1.initial

mutual
/-- The written form of the default. -/
def initial : Shape → Value
  | .bool => .bool false
  | .string => .string ""
  | .integer _ _ => .whole 0
  | .float => .number (.float .zero)
  | .unit => .null
  | .any => .null
  | .choice words => .string (words.headD "")
  | .optional _ => .null
  | .list _ => .array []
  | .map _ _ => .object []
  | .tuple shapes => .array (initials shapes)
  | .record _ fields => Value.ofFields (initialFields fields)

/-- The written forms of several defaults. -/
def initials : List Shape → List Value
  | [] => []
  | shape :: rest => shape.initial :: initials rest
end

/-- A binary64 number, converted from a whole number where necessary. -/
def rebuildFloat : Value → Option Value
  | .number (.float d) => some (.number (.float d))
  | .number (.whole i) => (Double.ofInt? i).map fun d => .number (.float d)
  | _ => none

/-- A word, given as a string or as the only key of an object without a value. -/
def rebuildChoice (words : List String) : Value → Option Value
  | .string word => if words.contains word then some (.string word) else none
  -- Both ways of naming a word are written again as the word alone.
  | .object [(word, .null)] => if words.contains word then some (.string word) else none
  | _ => none

/-- The given entries that no field declares. -/
def undeclared (fields : List (FieldRule × Shape)) (given : Fields) : Fields :=
  given.filter fun entry => !fields.any fun field => field.1.name = entry.1 && field.1.pinned.isNone

mutual
/-- Rebuilds a value of the shape and writes it again; no answer means that the shape refuses. -/
def rebuild : Shape → Value → Option Value
  | .bool, v =>
    match v with
    | .bool b => some (.bool b)
    | _ => none
  | .string, v =>
    match v with
    | .string s => some (.string s)
    | _ => none
  | .integer low high, v =>
    match v with
    | .number (.whole i) => if low ≤ i ∧ i ≤ high then some (.whole i) else none
    | _ => none
  | .float, v => rebuildFloat v
  | .unit, v => if v.isNull then some .null else none
  | .any, v => some v
  | .choice words, v => rebuildChoice words v
  | .optional shape, v => if v.isNull then some .null else rebuild shape v
  | .list shape, v =>
    match v with
    | .array items => (items.mapM fun item => rebuild shape item).map .array
    | _ => none
  | .map decimalKeys shape, v =>
    match v with
    | .object entries =>
      if decimalKeys && !entries.all (fun entry => isDecimalKey entry.1) then none
      else
        (entries.mapM fun entry => (rebuild shape entry.2).map fun v => (entry.1, v)).map .object
    | _ => none
  | .tuple shapes, v =>
    match v with
    | .array items => (rebuildTuple shapes items).map .array
    | _ => none
  | .record rule fields, v =>
    match v with
    | .object given =>
      -- Unknown keys are judged before any declared field is rebuilt.
      let others := undeclared fields given
      if rule.unknown = .rejected ∧ ¬others.isEmpty then none
      else
        (rebuildNamed rule fields given).map fun declared =>
          Value.ofFields ((if rule.unknown = .kept then others else []) ++ declared)
    | .array items =>
      if rule.positional then (rebuildPositions rule fields items).map Value.ofFields else none
    | _ => none

/-- Rebuilds exactly as many items as there are shapes. -/
def rebuildTuple : List Shape → List Value → Option (List Value)
  | [], [] => some []
  | shape :: shapes, item :: items => do
    let first ← rebuild shape item
    let rest ← rebuildTuple shapes items
    return first :: rest
  | _, _ => none

/-- Rebuilds declared fields from the entries of an object. -/
def rebuildNamed (rule : RecordRule) : List (FieldRule × Shape) → Fields → Option Fields
  | [], _ => some []
  | (field, shape) :: fields, given => do
    let v ←
      match field.pinned with
      | some pinned => some pinned
      -- A field that is given as null is given, and its shape decides about null.
      | none =>
        match Keyed.get? field.name given with
        | some v => rebuild shape v
        | none => if rule.missing = .initial then some field.initial else none
    let rest ← rebuildNamed rule fields given
    return field.entry v ++ rest

/-- Rebuilds declared fields from a sequence in declaration order. -/
def rebuildPositions (rule : RecordRule) : List (FieldRule × Shape) → List Value → Option Fields
  | [], items => if items.isEmpty then some [] else none
  | (field, shape) :: fields, items =>
    match field.pinned with
    -- A field that is never read takes no place in the sequence.
    | some pinned => do
      let rest ← rebuildPositions rule fields items
      return field.entry pinned ++ rest
    | none =>
      match items with
      | [] =>
        if rule.missing = .initial then do
          let rest ← rebuildPositions rule fields []
          return field.entry field.initial ++ rest
        else none
      | item :: items => do
        let v ← rebuild shape item
        let rest ← rebuildPositions rule fields items
        return field.entry v ++ rest
end

/-- The representation type of a shape; a representation is held in its written form. -/
def codec (name : String) (shape : Shape) : Codec Value where
  name := name
  initial := shape.initial
  encode v := .ok v
  decode v := shape.rebuild v

end Shape

end Triversion
