import Triversion.Shape.Basic

/-! Words for building shapes: numbers by width, fields by default, structs by what they accept. -/

namespace Triversion.Shape

/-- Whole numbers of some bits, from zero on. -/
def unsigned (bits : Nat) : Shape :=
  .integer 0 (twoTo bits - 1)

/-- Whole numbers of some bits, as many of them negative as not. -/
def signed (bits : Nat) : Shape :=
  .integer (-twoTo (bits - 1)) (twoTo (bits - 1) - 1)

/-- Objects with text keys. -/
def mapOf (shape : Shape) : Shape :=
  .map false shape

/-- A field that starts with the default of its shape and is always written. -/
def field (name : String) (shape : Shape) : FieldRule × Shape :=
  (⟨name, shape.initial, .never, none⟩, shape)

/-- A field that starts with a value of its own. -/
def preset (name : String) (shape : Shape) (initial : Value) : FieldRule × Shape :=
  (⟨name, initial, .never, none⟩, shape)

/-- A field that is not always written. -/
def omitted (name : String) (shape : Shape) (omission : Omission) : FieldRule × Shape :=
  (⟨name, shape.initial, omission, none⟩, shape)

/-- A struct that ignores unknown keys and completes missing ones. -/
def struct (fields : List (FieldRule × Shape)) : Shape :=
  .record ⟨.ignored, .initial, true⟩ fields

/-- A struct that refuses unknown keys. -/
def strictStruct (fields : List (FieldRule × Shape)) : Shape :=
  .record ⟨.rejected, .initial, true⟩ fields

/-- A struct that refuses to miss a key. -/
def requiredStruct (fields : List (FieldRule × Shape)) : Shape :=
  .record ⟨.ignored, .rejected, true⟩ fields

/-- A struct that keeps unknown keys. -/
def openStruct (fields : List (FieldRule × Shape)) : Shape :=
  .record ⟨.kept, .initial, false⟩ fields

end Triversion.Shape
