import Triversion.Value.Basic

/-! The two written forms of records and the written forms of alternatives. -/

namespace Triversion.Value

/--
The values of a record's members, in the order of their names.

A record is an object that holds all of them, or a sequence of exactly the members in order.
-/
def members? (names : List String) : Value → Option (List Value)
  -- Unknown keys are passed over.
  | .object fields => names.mapM fun name => Keyed.get? name fields
  | .array items => if items.length = names.length then some items else none
  | _ => none

/-- An alternative's name and what it carries: a bare string, or an object with one entry. -/
def alternative? : Value → Option (String × Value)
  | .string name => some (name, .null)
  | .object [(name, carried)] => some (name, carried)
  | _ => none

/-- An alternative that carries nothing. -/
def bareAlternative? (v : Value) : Option String :=
  match v.alternative? with
  | some (name, .null) => some name
  | _ => none

/-- An alternative that carries a value. -/
def carryingAlternative? : Value → Option (String × Value)
  | .object [(name, carried)] => some (name, carried)
  | _ => none

/-- The natural number below a bound that a value is. -/
def nat? (bound : Nat) : Value → Option Nat
  | .number (.whole i) => if 0 ≤ i ∧ i < bound then some i.toNat else none
  | _ => none

/-- The items of a sequence. -/
def items? : Value → Option (List Value)
  | .array items => some items
  | _ => none

end Triversion.Value
