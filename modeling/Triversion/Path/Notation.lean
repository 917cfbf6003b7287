import Triversion.Numeric.Digits
import Triversion.Numeric.Power
import Triversion.Path.Basic

/-! The written form of routes, such as `.Rules[0]["web"].Name`, and its reader. -/

namespace Triversion

/-- Backslashes and double quotes of a key are written behind a backslash. -/
def escapeKey : List Char → List Char
  | [] => []
  | c :: rest => if c = '\\' ∨ c = '"' then '\\' :: c :: escapeKey rest else c :: escapeKey rest

/-- The written form of one step. -/
def Segment.chars : Segment → List Char
  | .field name => '.' :: name.toList
  | .index i => '[' :: digitsOf i ++ [']']
  | .key k => '[' :: '"' :: escapeKey k.toList ++ ['"', ']']

/-- The written form of a route is that of its steps, joined. -/
def Path.text (path : Path) : String :=
  String.ofList (path.flatMap Segment.chars)

/-- What can be wrong with a written route. -/
inductive PathDefect where
  | emptyField
  | danglingEscape
  | unterminatedKey
  | keyNotClosed
  | unterminatedIndex
  | indexNotNumber
  | noSegment
  deriving DecidableEq

/-- The explanation shown for a defect. -/
def PathDefect.message : PathDefect → String
  | .emptyField => "empty field name"
  | .danglingEscape => "dangling escape"
  | .unterminatedKey => "unterminated key"
  | .keyNotClosed => "expected ']' after key"
  | .unterminatedIndex => "unterminated index"
  | .indexNotNumber => "index is not a number"
  | .noSegment => "expected '.' or '['"

namespace Path

/-- A field name goes on until the next step begins. -/
def continuesField (c : Char) : Bool :=
  c != '.' && c != '['

/-- Positions are below this bound. -/
def indexBound : Nat :=
  twoTo 64

/-- The value of a nonempty run of ASCII digits. -/
def decimal? (digits : List Char) : Option Nat :=
  if digits.isEmpty || !digits.all Char.isDigit then none
  else some (digitsValue digits)

/-- A position is written in ASCII digits, possibly behind a plus sign. -/
def position? (chars : List Char) : Option Nat :=
  -- A single plus sign may stand in front, and says nothing.
  let digits := match chars with
    | '+' :: digits => digits
    | digits => digits
  (decimal? digits).filter (· < indexBound)

/-- The content of a key up to its closing quote, and what follows the quote. -/
def readKey : List Char → Except PathDefect (List Char × List Char)
  | [] => .error .unterminatedKey
  | '"' :: rest => .ok ([], rest)
  -- A backslash must have a character behind it, and that character then stands for itself.
  | ['\\'] => .error .danglingEscape
  | '\\' :: c :: rest => (readKey rest).map fun (key, after) => (c :: key, after)
  | c :: rest => (readKey rest).map fun (key, after) => (c :: key, after)

/-- The first written step, and what follows it. -/
def readSegment : List Char → Except PathDefect (Segment × List Char)
  | '.' :: rest =>
    -- The name reaches to the next point or opening bracket.
    let name := rest.takeWhile continuesField
    if name.isEmpty then .error .emptyField
    else .ok (.field (String.ofList name), rest.dropWhile continuesField)
  | '[' :: '"' :: rest =>
    -- The bracket must close right behind the closing quote.
    match readKey rest with
    | .error defect => .error defect
    | .ok (key, ']' :: after) => .ok (.key (String.ofList key), after)
    | .ok (_, _) => .error .keyNotClosed
  | '[' :: rest =>
    -- Everything up to the closing bracket has to be one number.
    match rest.dropWhile (· != ']') with
    | [] => .error .unterminatedIndex
    | _ :: after =>
      match position? (rest.takeWhile (· != ']')) with
      | some i => .ok (.index i, after)
      | none => .error .indexNotNumber
  | _ => .error .noSegment

/-- What follows a key is shorter than what the key began. -/
theorem length_readKey {chars key after : List Char} (read : readKey chars = .ok (key, after)) :
    after.length < chars.length := by
  -- Every step consumes at least one character, and the closing quote consumes one more.
  fun_induction readKey chars generalizing key with
  | case1 => simp at read
  | case2 rest => simp_all
  | case3 => simp at read
  | case4 c rest shorter =>
    cases inner : readKey rest with
    | error defect => simp [inner, Except.map] at read
    | ok found =>
      obtain ⟨content, left⟩ := found
      simp only [inner, Except.map, Except.ok.injEq, Prod.mk.injEq] at read
      have := shorter (inner.trans (by rw [read.2]))
      simp only [List.length_cons]
      omega
  | case5 c rest _ _ _ shorter =>
    cases inner : readKey rest with
    | error defect => simp [inner, Except.map] at read
    | ok found =>
      obtain ⟨content, left⟩ := found
      simp only [inner, Except.map, Except.ok.injEq, Prod.mk.injEq] at read
      have := shorter (inner.trans (by rw [read.2]))
      simp only [List.length_cons]
      omega

/-- Reading a step leaves less to read. -/
theorem length_readSegment {chars after : List Char} {segment : Segment}
    (read : readSegment chars = .ok (segment, after)) : after.length < chars.length := by
  -- Each of the three forms consumes its opening character and never gives one back.
  unfold readSegment at read
  split at read
  · next rest =>
    -- A field leaves a final part of what stands behind its point.
    simp only at read
    split at read
    · simp at read
    · simp only [Except.ok.injEq, Prod.mk.injEq] at read
      have := (List.dropWhile_suffix continuesField (l := rest)).length_le
      simp only [read.2, List.length_cons] at this ⊢
      omega
  · next rest =>
    split at read
    · simp at read
    · next key inside keyed =>
      simp only [Except.ok.injEq, Prod.mk.injEq] at read
      have := length_readKey keyed
      simp only [read.2, List.length_cons] at this ⊢
      omega
    · simp at read
  · next rest _ =>
    split at read
    · simp at read
    · next closing left found =>
      -- The closing bracket is part of the final part that the search for it leaves.
      split at read
      · simp only [Except.ok.injEq, Prod.mk.injEq] at read
        have := (List.dropWhile_suffix (· != ']') (l := rest)).length_le
        simp only [found, read.2, List.length_cons] at this ⊢
        omega
      · simp at read
  · simp at read

/-- The steps written one after another. -/
def ofChars (chars : List Char) : Except PathDefect Path :=
  match chars with
  | [] => .ok []
  | c :: rest =>
    match read : readSegment (c :: rest) with
    | .error defect => .error defect
    | .ok (segment, after) =>
      have := length_readSegment read
      (ofChars after).map (segment :: ·)
termination_by chars.length
decreasing_by
  exact this

/-- Reads a written route. -/
def ofText (text : String) : Except PathDefect Path :=
  ofChars text.toList

end Path

end Triversion
