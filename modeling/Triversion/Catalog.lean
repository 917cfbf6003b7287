import Triversion.Shape.Build

/-! Sample representation types, which between them use every kind of shape and every convention. -/

namespace Triversion.Catalog

open Shape

/-- The two bookkeeping lists. -/
def lists : List (FieldRule × Shape) :=
  [field "NullFields" (.list .string), field "ForceSendFields" (.list .string)]

/-- A rule about a number and a protocol. -/
def rule : Shape :=
  struct [field "Port" (.unsigned 32), field "Protocol" .string]

/-- A rule about a number alone. -/
def narrowRule : Shape :=
  struct [field "Port" (.unsigned 32)]

/-- A struct with one field of every common kind. -/
def source : Shape :=
  struct ([
    field "Name" .string,
    field "Size" (.unsigned 64),
    field "Weight" .float,
    field "FeatureFlag" .bool,
    field "Labels" (.mapOf .string),
    field "Rules" (.list rule),
    field "Nested" (.optional rule),
    field "Mode" .string] ++ lists)

/-- The same names with narrower and with different shapes. -/
def dest : Shape :=
  struct ([
    field "Name" .string,
    field "Size" (.unsigned 64),
    field "Weight" (.unsigned 32),
    field "Labels" (.mapOf .string),
    field "Rules" (.list narrowRule),
    field "Nested" (.optional narrowRule),
    field "Mode" (.unsigned 32),
    field "DestOnly" .string] ++ lists)

/-- Plain fields beside an optional one. -/
def plain : Shape :=
  struct [
    field "Mode" .string,
    field "Count" (.optional (.unsigned 32)),
    field "Size" (.unsigned 32),
    field "Ports" (.list (.unsigned 32)),
    field "Rules" (.mapOf narrowRule)]

/-- The same names with looser shapes. -/
def loose : Shape :=
  struct [
    field "Mode" (.optional .string),
    field "Count" (.optional .string),
    field "Size" (.unsigned 64),
    field "Ports" (.list .any),
    field "Rules" (.mapOf rule)]

/-- Where a service sends its traffic. -/
def backend : Shape :=
  struct ([field "Address" .string, field "Port" (.unsigned 32)] ++ lists)

/-- A stable service. -/
def stableService : Shape :=
  struct ([
    field "Name" .string,
    field "Description" .string,
    field "Ports" (.list (.unsigned 32)),
    field "Backend" (.optional backend),
    field "LegacyMode" .string,
    field "SelfLink" .string] ++ lists)

/-- An alpha service. -/
def alphaService : Shape :=
  struct ([
    field "Name" .string,
    field "Description" .string,
    field "Ports" (.list (.unsigned 32)),
    field "Backend" (.optional backend),
    field "FeatureFlag" .bool,
    field "Rollout" .string,
    field "SelfLink" .string] ++ lists)

/-- A beta service. -/
def betaService : Shape :=
  struct ([
    field "Name" .string,
    field "Description" .string,
    field "Ports" (.list (.unsigned 32)),
    field "Backend" (.optional backend),
    field "BetaTier" .string,
    field "Rollout" .string,
    field "SelfLink" .string] ++ lists)

/-- A struct without bookkeeping lists. -/
def widget : Shape :=
  struct [
    field "Name" .string,
    field "Description" .string,
    field "Mode" .string,
    field "Size" (.unsigned 32)]

/-- The same names with an optional mode and a wider size. -/
def alphaWidget : Shape :=
  struct [
    field "Name" .string,
    field "Description" .string,
    field "Mode" (.optional .string),
    field "Size" (.unsigned 64)]

/-- A member of a pool. -/
def group : Shape :=
  struct ([field "Group" .string, field "Capacity" .float] ++ lists)

/-- Structs with bookkeeping lists inside a struct with bookkeeping lists. -/
def pool : Shape :=
  struct ([
    field "Name" .string,
    field "Description" .string,
    field "Port" (.unsigned 32),
    field "Enabled" .bool,
    field "SelfLink" .string,
    field "Backends" (.list group),
    field "HealthCheck" (.optional .string)] ++ lists)

/-- A struct of one number. -/
def inner : Shape :=
  struct [field "Port" (.unsigned 32)]

/-- A struct that holds another one in three ways. -/
def outer : Shape :=
  struct ([
    field "Name" .string,
    field "Inner" inner,
    field "Maybe" (.optional inner),
    field "Items" (.list inner)] ++ lists)

/-- Numbers of all widths. -/
def nums : Shape :=
  struct [
    field "A" (.unsigned 8),
    field "B" (.signed 8),
    field "C" (.unsigned 16),
    field "D" (.signed 64),
    field "E" (.unsigned 64),
    field "F" .float,
    field "G" (.optional (.signed 32)),
    field "H" (.list (.signed 64)),
    field "I" (.mapOf (.unsigned 8)),
    field "J" (.optional .float)]

/-- Maps at various places. -/
def maps : Shape :=
  struct [
    field "Counts" (.mapOf (.unsigned 32)),
    field "Nested" (.mapOf (.mapOf (.unsigned 32))),
    field "Groups" (.mapOf (.list .string)),
    field "Items" (.list (.mapOf .string)),
    field "Rules" (.mapOf rule),
    field "Maybe" (.optional (.mapOf .string)),
    field "Grid" (.list (.list (.unsigned 32)))]

/-- A choice of three words. -/
def mode : Shape :=
  .choice ["Unset", "Fast", "Slow"]

/-- Choices at various places. -/
def modes : Shape :=
  struct [
    field "Name" .string,
    field "Mode" mode,
    field "Alt" (.optional mode),
    field "List" (.list mode),
    field "ByName" (.mapOf mode)]

/-- A struct that refuses unknown keys. -/
def strict : Shape :=
  strictStruct [
    field "Name" .string,
    field "Size" (.unsigned 32),
    field "Tags" (.list .string),
    field "NullFields" (.list .string)]

/-- A struct that refuses to miss a key. -/
def required : Shape :=
  requiredStruct [field "Name" .string, field "Size" (.unsigned 32)]

/-- Structs that refuse to miss a key, at various places. -/
def requiredEverywhere : Shape :=
  struct [
    field "One" (.optional required),
    field "Many" (.list required),
    field "ByName" (.mapOf required),
    field "Fixed" required]

/-- A struct that leaves out what is null or empty. -/
def sparse : Shape :=
  struct ([
    field "Name" .string,
    omitted "Note" (.optional .string) .whenNull,
    omitted "Limit" (.optional (.unsigned 8)) .whenNull,
    omitted "Tags" (.list .string) .whenEmpty,
    omitted "Rule" (.optional rule) .whenNull] ++ lists)

/-- A struct that keeps unknown keys. -/
def flex : Shape :=
  openStruct [field "Name" .string]

/-- Arbitrary values at various places. -/
def blob : Shape :=
  struct [
    field "Name" .string,
    field "Data" .any,
    field "List" (.list .any),
    field "Dict" (.mapOf .any)]

/-- A map whose keys are numbers. -/
def keyed : Shape :=
  struct [field "Name" .string, field "ById" (.map true .string)]

/-- Tuples at various places. -/
def pairs : Shape :=
  struct [
    field "Name" .string,
    field "Pair" (.tuple [.unsigned 32, .unsigned 32]),
    field "Maybe" (.optional (.tuple [.unsigned 32, .string])),
    field "List" (.list (.tuple [.unsigned 32, .unsigned 32]))]

/-- Structs that refuse unknown keys, at various places. -/
def strictHolder : Shape :=
  struct [
    field "Name" .string,
    field "Strict" strict,
    field "List" (.list strict),
    field "Maybe" (.optional strict)]

/-- A name that is a number. -/
def numericName : Shape :=
  struct [field "Name" (.unsigned 64)]

/-- A name that may be null. -/
def optName : Shape :=
  struct [field "Name" (.optional .string)]

/-- A name that is a list. -/
def listName : Shape :=
  struct [field "Name" (.list .string)]

/-- A name that is a truth value. -/
def boolName : Shape :=
  struct [field "Name" .bool]

/-- A name that is a struct. -/
def structName : Shape :=
  struct [field "Name" rule]

/-- A bookkeeping list of numbers. -/
def numericNulls : Shape :=
  struct [
    field "Name" .string,
    field "Size" (.unsigned 32),
    field "NullFields" (.list (.unsigned 32)),
    field "ForceSendFields" (.list .string)]

/-- A bookkeeping list that is text. -/
def textNulls : Shape :=
  struct [field "Name" .string, field "NullFields" .string]

/-- A bookkeeping list that may be null. -/
def optionalForced : Shape :=
  struct [
    field "Name" .string,
    field "NullFields" (.list .string),
    field "ForceSendFields" (.optional (.list .string))]

/-- A bookkeeping list that is a map. -/
def forcedMap : Shape :=
  struct [field "Name" .string, field "ForceSendFields" (.mapOf .bool)]

/-- Only one of the bookkeeping lists. -/
def nullsOnly : Shape :=
  struct [
    field "Name" .string,
    field "Size" (.unsigned 32),
    field "Maybe" (.optional (.unsigned 32)),
    field "NullFields" (.list .string)]

/-- Field names that are hard to write in a route. -/
def oddNames : Shape :=
  struct ([
    field "Name" .string,
    field "a.b" (.unsigned 32),
    field "Ü\n" (.optional (.unsigned 32))] ++ lists)

/-- A bare number. -/
def bareNumber : Shape :=
  .unsigned 32

/-- A bare pair of numbers. -/
def barePair : Shape :=
  .tuple [.unsigned 32, .unsigned 32]

/-- Nothing at all. -/
def nothing : Shape :=
  .unit

/-- A ratio whose default is no number and is written as null. -/
def ratioUnset : Shape :=
  struct [field "Name" .string, preset "Ratio" .float .null]

/-- A generation that is written and never read. -/
def lossy : Shape :=
  struct [
    field "Name" .string,
    (⟨"Gen", .whole 7, .never, some (.whole 0)⟩, .unsigned 32)]

/-- Defaults that carry information. -/
def presets : Shape :=
  struct [
    preset "Name" .string (.string "preset"),
    preset "Level" (.unsigned 32) (.whole 3),
    preset "On" .bool (.bool true),
    preset "Tags" (.list .string) (Value.strings ["x"])]

/-- A tree of the given height. -/
def treeOf : Nat → Shape
  | 0 => .choice []
  | height + 1 =>
    let below := treeOf height
    struct ([
      field "Name" .string,
      field "Value" (.signed 64),
      field "Left" (.optional below),
      field "Kids" (.list below),
      field "Index" (.mapOf below)] ++ lists)

/-- Trees of any height; no value holds a tree higher than the value is deep. -/
def tree : Codec Value where
  name := "Tree"
  initial := (treeOf 1).initial
  encode v := .ok v
  decode v := (treeOf v.depth).rebuild v

/-- A type that can be rebuilt from anything and never written. -/
def refuses : Codec Unit where
  name := "Refuses"
  initial := ()
  encode _ := .error "refused"
  decode _ := some ()

end Triversion.Catalog
