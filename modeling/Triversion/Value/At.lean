import Triversion.Path.Basic
import Triversion.Value.Basic

/-! Reading and changing a value at the end of a route. -/

namespace Triversion.Value

/-- The part that one step leads to; field and key steps both look into objects. -/
def step? : Segment → Value → Option Value
  | .index i, .array items => items[i]?
  | .field name, .object fields => Keyed.get? name fields
  | .key k, .object fields => Keyed.get? k fields
  | _, _ => none

/-- The part that a route leads to. -/
def at? : Path → Value → Option Value
  | [], v => some v
  | segment :: path, v => (v.step? segment).bind (at? path)

/-- Changes the part that one step leads to; without such a part nothing changes. -/
def modifyStep (segment : Segment) (f : Value → Value) : Value → Value
  | .array items =>
    match segment with
    | .index i => .array (items.modify i f)
    -- A name leads nowhere inside a sequence, and a position nowhere inside an object.
    | _ => .array items
  | .object fields =>
    match segment.name? with
    | some name => .object (Keyed.modify name f fields)
    | none => .object fields
  | v => v

/-- Changes the part that a route leads to; without such a part nothing changes. -/
def modifyAt : Path → (Value → Value) → Value → Value
  | [], f, v => f v
  | segment :: path, f, v => modifyStep segment (modifyAt path f) v

/-- Sets the part that one step leads to; an object takes a new name, a sequence no new position. -/
def setStep (segment : Segment) (new : Value) : Value → Value
  | .array items =>
    match segment with
    | .index i => .array (items.set i new)
    | _ => .array items
  | .object fields =>
    match segment.name? with
    | some name => .object (Keyed.put name new fields)
    | none => .object fields
  | v => v

/-- Sets the part at the end of a route, adding the last name where its object lacks it. -/
def setAt : Path → Value → Value → Value
  | [], new, _ => new
  -- Only the last step may add an entry; the steps before it lead through parts that exist.
  | [segment], new, v => setStep segment new v
  | segment :: path, new, v => modifyStep segment (setAt path new) v

/-- Removes the entry that one step names from an object. -/
def eraseStep (segment : Segment) : Value → Value
  | .object fields =>
    match segment.name? with
    | some name => .object (Keyed.erase name fields)
    | none => .object fields
  | v => v

/-- Removes the entry that a route ends at from its object. -/
def eraseAt : Path → Value → Value
  -- The whole value has no object to be removed from.
  | [], v => v
  | [segment], v => eraseStep segment v
  | segment :: path, v => modifyStep segment (eraseAt path) v

/-- Appends an item to a sequence. -/
def pushItem (item : Value) : Value → Value
  | .array items => .array (items ++ [item])
  | v => v

/-- The entry under a name, or null, which a later step may turn into something else. -/
def entryOrNull (name : String) (fields : Fields) : Value :=
  (Keyed.get? name fields).getD .null

/--
Assigns the part at the end of a route.

A name that an object lacks is created on the way, and the position behind the last item appends.
There is no answer where a step does not match what it meets.
-/
def assign? : Path → Value → Value → Option Value
  | [], new, _ => some new
  | .index i :: path, new, .array items =>
    match items[i]? with
    | some item => (assign? path new item).map fun changed => .array (items.set i changed)
    | none =>
      -- A new item starts as null, like a new entry does.
      if i = items.length then
        (assign? path new .null).map fun item => .array (items ++ [item])
      else none
  | .field name :: path, new, .object fields =>
    (assign? path new (entryOrNull name fields)).map fun v => .object (Keyed.put name v fields)
  | .key name :: path, new, .object fields =>
    (assign? path new (entryOrNull name fields)).map fun v => .object (Keyed.put name v fields)
  | _ :: _, _, _ => none

/-- The names listed by a bookkeeping field, other items of the list being no names. -/
def listedNames (fields : Fields) (list : String) : List String :=
  match Keyed.get? list fields with
  | some (.array items) => items.filterMap string?
  | _ => []

end Triversion.Value
