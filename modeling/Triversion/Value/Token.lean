import Triversion.Value.Basic

/-! The tokens of written values, and the scanner that cuts text into them. -/

namespace Triversion

/-- A mark of punctuation, a string, or the characters of a bare word. -/
inductive Token where
  | mark (c : Char)
  | string (s : String)
  | word (chars : List Char)

/-- What the scanner is inside of; gathered characters stand in reverse. -/
inductive ScanState where
  /-- Between tokens. -/
  | gap
  /-- In a bare word. -/
  | word (gathered : List Char)
  /-- In a string. -/
  | string (gathered : List Char)
  /-- Behind a backslash in a string. -/
  | escape (gathered : List Char)
  /-- In the digits of an escape, possibly the second one of a pair. -/
  | code (gathered : List Char) (high : Option Nat) (value missing : Nat)
  /-- Behind the first escape of a pair. -/
  | pair (gathered : List Char) (high : Nat)
  /-- Behind the backslash of the second escape of a pair. -/
  | pairEscape (gathered : List Char) (high : Nat)

namespace Token

/-- The characters that stand for themselves between the other tokens. -/
def isMark (c : Char) : Bool :=
  c == '\x7b' || c == '\x7d' || c == '[' || c == ']' || c == ':' || c == ','

/-- The characters that may stand between tokens. -/
def isSpacing (c : Char) : Bool :=
  c == ' ' || c == '\t' || c == '\n' || c == '\r'

/-- The value of a base sixteen digit. -/
def hexValue? (c : Char) : Option Nat :=
  if c.isDigit then some (c.toNat - '0'.toNat)
  else if 'a'.toNat ≤ c.toNat ∧ c.toNat ≤ 'f'.toNat then some (c.toNat - 'a'.toNat + 10)
  else if 'A'.toNat ≤ c.toNat ∧ c.toNat ≤ 'F'.toNat then some (c.toNat - 'A'.toNat + 10)
  else none

/-- The character behind a backslash, for the escapes of a single letter. -/
def letterEscape? (c : Char) : Option Char :=
  if c = '"' ∨ c = '\\' ∨ c = '/' then some c
  else if c = 'b' then some '\x08'
  else if c = 'f' then some '\x0c'
  else if c = 'n' then some '\n'
  else if c = 'r' then some '\r'
  else if c = 't' then some '\t'
  else none

/-- What a finished escape of four digits leads to. -/
def afterCode (gathered : List Char) (high : Option Nat) (value : Nat) : Option ScanState :=
  match high with
  | none =>
    -- The first half of a pair waits for the second, and a second half never comes first.
    if 0xd800 ≤ value ∧ value < 0xdc00 then some (.pair gathered value)
    else if 0xdc00 ≤ value ∧ value < 0xe000 then none
    else some (.string (Char.ofNat value :: gathered))
  | some high =>
    if 0xdc00 ≤ value ∧ value < 0xe000 then
      let code := 0x10000 + (high - 0xd800) * 0x400 + (value - 0xdc00)
      some (.string (Char.ofNat code :: gathered))
    else none

/-- A character read outside any token: the token it completes, if any, and the new state. -/
def openWith (c : Char) : List Token × ScanState :=
  if isSpacing c then ([], .gap)
  else if isMark c then ([.mark c], .gap)
  else if c = '"' then ([], .string [])
  else ([], .word [c])

/-- One character read: the tokens it completes, and the new state. -/
def scanStep (state : ScanState) (c : Char) : Option (List Token × ScanState) :=
  match state with
  | .gap => some (openWith c)
  | .word gathered =>
    -- A word ends where another token begins, and that character is read at once.
    if isSpacing c || isMark c || c == '"' then
      let (tokens, next) := openWith c
      some (.word gathered.reverse :: tokens, next)
    else some ([], .word (c :: gathered))
  | .string gathered =>
    if c = '"' then some ([.string (String.ofList gathered.reverse)], .gap)
    else if c = '\\' then some ([], .escape gathered)
    else if c.toNat < 0x20 then none
    else some ([], .string (c :: gathered))
  | .escape gathered =>
    if c = 'u' then some ([], .code gathered none 0 4)
    else (letterEscape? c).map fun plain => ([], .string (plain :: gathered))
  | .code gathered high value missing =>
    (hexValue? c).bind fun digit =>
      let value := 16 * value + digit
      if missing ≤ 1 then (afterCode gathered high value).map fun next => ([], next)
      else some ([], .code gathered high value (missing - 1))
  | .pair gathered high =>
    if c = '\\' then some ([], .pairEscape gathered high) else none
  | .pairEscape gathered high =>
    if c = 'u' then some ([], .code gathered (some high) 0 4) else none

/-- Cuts the remaining characters into tokens. -/
def scan (state : ScanState) : List Char → Option (List Token)
  | [] =>
    match state with
    | .gap => some []
    | .word gathered => some [.word gathered.reverse]
    | _ => none
  | c :: rest =>
    match scanStep state c with
    | none => none
    | some (tokens, next) => (scan next rest).map (tokens ++ ·)

end Token

end Triversion
