import Triversion.Numeric.Layout
import Triversion.Text.Quoted
import Triversion.Value.Basic

/-! The compact written form of values: one line, keys in order, nothing between the tokens. -/

namespace Triversion

/-- How one character stands in a written string. -/
def writtenChar (c : Char) : List Char :=
  if c = '"' then ['\\', '"']
  else if c = '\\' then ['\\', '\\']
  else if c = '\x08' then ['\\', 'b']
  else if c = '\x0c' then ['\\', 'f']
  else if c = '\n' then ['\\', 'n']
  else if c = '\r' then ['\\', 'r']
  else if c = '\t' then ['\\', 't']
  -- The remaining controls take four base sixteen digits, of which the first two are zero.
  else if c.toNat < 0x20 then
    ['\\', 'u', '0', '0'] ++ (if c.toNat < 0x10 then ['0'] else []) ++ hexDigits c.toNat
  else [c]

/-- A string between double quotes. -/
def writtenString (s : String) : List Char :=
  '"' :: s.toList.flatMap writtenChar ++ ['"']

/-- Whole numbers as digits, binary64 numbers as the fewest digits that read back. -/
def Number.text : Number → String
  | .whole i => wholeText i
  | .float d => d.text

namespace Value

mutual
/-- The characters of the written form. -/
def chars : Value → List Char
  | .null => "null".toList
  | .bool true => "true".toList
  | .bool false => "false".toList
  | .number n => n.text.toList
  | .string s => writtenString s
  | .array items => '[' :: charsItems items ++ [']']
  | .object fields => '\x7b' :: charsFields fields ++ ['\x7d']

/-- Items stand between commas. -/
def charsItems : List Value → List Char
  | [] => []
  | [v] => v.chars
  | v :: rest => v.chars ++ ',' :: charsItems rest

/-- Fields stand between commas, each name before a colon. -/
def charsFields : List (String × Value) → List Char
  | [] => []
  | [(name, v)] => writtenString name ++ ':' :: v.chars
  | (name, v) :: rest => writtenString name ++ ':' :: v.chars ++ ',' :: charsFields rest
end

/-- The compact written form. -/
def text (v : Value) : String :=
  String.ofList v.chars

end Value

end Triversion
