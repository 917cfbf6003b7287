import Triversion.Value.At

/-! The reserved field names: the identity field and the two lists of what is absent on purpose. -/

namespace Triversion

/-- The field that carries the name of a resource. -/
def nameField : String :=
  "Name"

/-- The list of fields that are sent as null on purpose. -/
def nullFields : String :=
  "NullFields"

/-- The list of fields that are sent with a zero value on purpose. -/
def forceSendFields : String :=
  "ForceSendFields"

/-- Both bookkeeping lists. -/
def bookkeepingLists : List String :=
  [nullFields, forceSendFields]

/-- Whether a field is one of the bookkeeping lists. -/
def isBookkeeping (name : String) : Bool :=
  bookkeepingLists.contains name

/-- There are two bookkeeping lists. -/
theorem mem_bookkeepingLists {list : String} :
    list ∈ bookkeepingLists ↔ list = nullFields ∨ list = forceSendFields := by
  simp [bookkeepingLists]

/-- The fields that are null on purpose are in a bookkeeping list. -/
theorem nullFields_mem : nullFields ∈ bookkeepingLists :=
  mem_bookkeepingLists.2 (.inl rfl)

/-- The fields that are zero on purpose are in a bookkeeping list. -/
theorem forceSendFields_mem : forceSendFields ∈ bookkeepingLists :=
  mem_bookkeepingLists.2 (.inr rfl)

/-- A field is reserved exactly if it is one of the lists. -/
theorem isBookkeeping_iff {name : String} :
    isBookkeeping name = true ↔ name ∈ bookkeepingLists := by
  simp [isBookkeeping]

end Triversion
