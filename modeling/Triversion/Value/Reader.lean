import Triversion.Numeric.Digits
import Triversion.Value.Token

/-! Reading written values: numerals keep their sort, and the last of repeated keys stays. -/

namespace Triversion

/-- A fraction part: nothing, or a point and at least one digit; the digits and what follows. -/
def readFraction : List Char → Option (List Char × List Char)
  | '.' :: rest =>
    let digits := rest.takeWhile Char.isDigit
    if digits.isEmpty then none else some (digits, rest.dropWhile Char.isDigit)
  | rest => some ([], rest)

/-- The power of ten behind an exponent mark. -/
def signedDigits? (chars : List Char) : Option Int :=
  let (negative, digits) := match chars with
    | '-' :: digits => (true, digits)
    | '+' :: digits => (false, digits)
    | digits => (false, digits)
  if digits.isEmpty || !digits.all Char.isDigit then none
  else some (if negative then -(digitsValue digits : Int) else digitsValue digits)

/-- An exponent part that ends the numeral: nothing, or a mark and a power of ten. -/
def readExponent : List Char → Option (Option Int)
  | [] => some none
  | c :: rest => if c = 'e' ∨ c = 'E' then (signedDigits? rest).map some else none

/-- A whole number where it is in range, and the nearest binary64 number where it is not. -/
def Number.ofWhole? (negative : Bool) (n : Nat) : Option Number :=
  let i : Int := if negative then -n else n
  -- A negative zero is no whole number.
  if Number.wholeMin ≤ i ∧ i ≤ Number.wholeMax ∧ ¬(negative ∧ n = 0) then some (.whole i)
  else (Double.ofDecimal? negative n 0).map .float

/-- The number of an unsigned numeral; a point or an exponent makes it a binary64 number. -/
def Number.ofUnsigned? (negative : Bool) (chars : List Char) : Option Number :=
  let digits := chars.takeWhile Char.isDigit
  -- A leading zero stands alone.
  if digits.isEmpty || (digits.head? == some '0' && 1 < digits.length) then none
  else do
    let (fraction, rest) ← readFraction (chars.dropWhile Char.isDigit)
    let exponent ← readExponent rest
    if fraction.isEmpty && exponent.isNone then Number.ofWhole? negative (digitsValue digits)
    else
      let grid := exponent.getD 0 - fraction.length
      (Double.ofDecimal? negative (digitsValue (digits ++ fraction)) grid).map .float

/-- The number of a numeral. -/
def Number.ofChars? : List Char → Option Number
  | '-' :: chars => Number.ofUnsigned? true chars
  | chars => Number.ofUnsigned? false chars

namespace Value

/-- The value of a bare word. -/
def ofWord? (chars : List Char) : Option Value :=
  if chars = "null".toList then some .null
  else if chars = "true".toList then some (.bool true)
  else if chars = "false".toList then some (.bool false)
  else (Number.ofChars? chars).map .number

/-- A container that is still open around what is being read. -/
inductive OpenFrame where
  /-- The items so far, the last one first. -/
  | array (gathered : List Value)
  /-- The fields so far, and the name of the field being read. -/
  | object (fields : Fields) (name : String)

/-- What the reader waits for inside the open containers, the innermost first. -/
inductive ReadState where
  | value (frames : List OpenFrame)
  | firstItem (frames : List OpenFrame)
  | afterItem (gathered : List Value) (frames : List OpenFrame)
  | firstName (frames : List OpenFrame)
  | name (fields : Fields) (frames : List OpenFrame)
  | colon (fields : Fields) (name : String) (frames : List OpenFrame)
  | afterField (fields : Fields) (frames : List OpenFrame)
  | done (v : Value)

/-- A finished value goes into the innermost open container. -/
def finish (v : Value) : List OpenFrame → ReadState
  | [] => .done v
  | .array gathered :: frames => .afterItem (v :: gathered) frames
  | .object fields name :: frames => .afterField (Keyed.put name v fields) frames

/-- A token where a value is due. -/
def beginValue (frames : List OpenFrame) : Token → Option ReadState
  | .mark c =>
    if c = '[' then some (.firstItem frames)
    else if c = '\x7b' then some (.firstName frames)
    else none
  | .string s => some (finish (.string s) frames)
  | .word chars => (ofWord? chars).map fun v => finish v frames

/-- One token read. -/
def readStep (state : ReadState) (token : Token) : Option ReadState :=
  match state, token with
  | .value frames, token => beginValue frames token
  | .firstItem frames, .mark ']' => some (finish (.array []) frames)
  | .firstItem frames, token => beginValue (.array [] :: frames) token
  | .afterItem gathered frames, .mark c =>
    if c = ',' then some (.value (.array gathered :: frames))
    else if c = ']' then some (finish (.array gathered.reverse) frames)
    else none
  | .firstName frames, .mark '\x7d' => some (finish (.object []) frames)
  | .firstName frames, .string s => some (.colon [] s frames)
  | .name fields frames, .string s => some (.colon fields s frames)
  | .colon fields name frames, .mark ':' => some (.value (.object fields name :: frames))
  | .afterField fields frames, .mark c =>
    if c = ',' then some (.name fields frames)
    else if c = '\x7d' then some (finish (.object fields) frames)
    else none
  | _, _ => none

/-- Reads a written value that is the whole text. -/
def ofText? (text : String) : Option Value := do
  let tokens ← Token.scan .gap text.toList
  match ← tokens.foldlM readStep (.value []) with
  | .done v => some v
  | _ => none

end Value

end Triversion
