import Triversion.Fault

/-!
The grammar of written routes.

A written route is a sequence of pieces, one for each step. The reader accepts exactly the texts of
this form, so written routes may be joined, and a route can be read back exactly if the names of its
fields cannot be mistaken for anything else.
-/

namespace Triversion.Path

/-- How a key is spelled: a character stands for itself, or for the one behind a backslash. -/
inductive KeyBody : List Char → List Char → Prop where
  | done : KeyBody [] []
  | plain {c : Char} {body key : List Char} (noEscape : c ≠ '\\') (noQuote : c ≠ '"')
    (rest : KeyBody body key) : KeyBody (c :: body) (c :: key)
  | pair (c : Char) {body key : List Char} (rest : KeyBody body key) :
    KeyBody ('\\' :: c :: body) (c :: key)

/-- The pieces of text that a step can be written as. -/
inductive Piece : Segment → List Char → Prop where
  /-- A field is a point in front of a name that contains no beginning of a step. -/
  | field {name : String} (named : name ≠ "") (plain : ∀ c ∈ name.toList, c ≠ '.' ∧ c ≠ '[') :
    Piece (.field name) ('.' :: name.toList)
  /-- A key is spelled between quotes between brackets. -/
  | key {k : String} {body : List Char} (spelled : KeyBody body k.toList) :
    Piece (.key k) ('[' :: '"' :: (body ++ ['"', ']']))
  /-- A position is a decimal number between brackets, possibly behind a plus sign. -/
  | index {sign digits : List Char} (signed : sign = [] ∨ sign = ['+']) (present : digits ≠ [])
    (decimal : ∀ c ∈ digits, c.isDigit = true) (small : digitsValue digits < twoTo 64) :
    Piece (.index (digitsValue digits)) ('[' :: (sign ++ digits ++ [']']))

/-- A route is written as one piece after another. -/
inductive Written : Path → List Char → Prop where
  | root : Written [] []
  | step {segment : Segment} {piece : List Char} {path : Path} {text : List Char}
    (first : Piece segment piece) (rest : Written path text) :
    Written (segment :: path) (piece ++ text)

section Steps

variable {segment : Segment} {chars after key : List Char}

/-- A key is read to the quote behind its spelling. -/
theorem readKey_of_keyBody {body : List Char} (spelled : KeyBody body key) (after : List Char) :
    readKey (body ++ '"' :: after) = .ok (key, after) := by
  -- The reader passes one character or one pair at a time, as the key is spelled.
  induction spelled with
  | done => rw [List.nil_append, readKey]
  | @plain c body key noEscape noQuote _ ih =>
    -- Something stands behind the character, so it cannot be a last backslash either.
    rw [List.cons_append, readKey.eq_def]
    split
    · contradiction
    · next same =>
      exact absurd (List.cons.inj same).1 noQuote
    · next same =>
      exact absurd (List.cons.inj same).1 noEscape
    · next same =>
      exact absurd (List.cons.inj same).1 noEscape
    · next same =>
      obtain ⟨rfl, rfl⟩ := List.cons.inj same
      rw [ih]
      rfl
  | pair c _ ih =>
    rw [List.cons_append, List.cons_append, readKey, ih]
    rfl

/-- A character in front of a key is read together with what the rest is read as. -/
theorem map_readKey_eq_ok {c : Char} {rest : List Char}
    (read : (readKey rest).map (fun (key, after) => (c :: key, after)) = .ok (key, after)) :
    ∃ inner, readKey rest = .ok (inner, after) ∧ key = c :: inner := by
  cases found : readKey rest with
  | error defect => simp [found, Except.map] at read
  | ok result =>
    simp only [found, Except.map, Except.ok.injEq, Prod.mk.injEq] at read
    exact ⟨result.1, by rw [← read.2], read.1.symm⟩

/-- What is read as a key is the spelling of the key and a quote. -/
theorem exists_keyBody_of_readKey (read : readKey chars = .ok (key, after)) :
    ∃ body, KeyBody body key ∧ chars = body ++ '"' :: after := by
  fun_induction readKey chars generalizing key with
  | case1 | case3 => simp at read
  | case2 rest =>
    obtain ⟨rfl, rfl⟩ : [] = key ∧ rest = after := by simpa using read
    exact ⟨[], .done, rfl⟩
  | case4 c rest ih =>
    -- Whatever is escaped, the two characters are a pair of the spelling.
    obtain ⟨inner, found, rfl⟩ := map_readKey_eq_ok read
    obtain ⟨body, spelled, rfl⟩ := ih found
    exact ⟨'\\' :: c :: body, .pair c spelled, rfl⟩
  | case5 c rest noQuote noEnd noPair ih =>
    obtain ⟨inner, found, rfl⟩ := map_readKey_eq_ok read
    obtain ⟨body, spelled, rfl⟩ := ih found
    -- A backslash would have had nothing behind it, or would have begun a pair.
    have noEscape : c ≠ '\\' := by
      intro escape
      cases behind : body ++ '"' :: after with
      | nil => exact noEnd escape behind
      | cons next others => exact noPair next others escape behind
    exact ⟨c :: body, .plain noEscape noQuote spelled, rfl⟩

/-- No step goes on where a text begins, unless the text is empty. -/
def Begins (text : List Char) : Prop :=
  ∀ c, text.head? = some c → continuesField c = false

/-- A number is read as a position if it is small enough, with or without a plus sign. -/
theorem position?_of_decimal {sign digits : List Char} (signed : sign = [] ∨ sign = ['+'])
    (present : digits ≠ []) (decimal : ∀ c ∈ digits, c.isDigit = true)
    (small : digitsValue digits < twoTo 64) :
    position? (sign ++ digits) = some (digitsValue digits) := by
  have value : decimal? digits = some (digitsValue digits) := by
    rw [decimal?, if_neg]
    simpa [present] using decimal
  have small : digitsValue digits < indexBound := small
  have kept : (decimal? digits).filter (· < indexBound) = some (digitsValue digits) := by
    simp [value, small]
  rcases signed with rfl | rfl
  · -- The first digit is no sign that could be taken off.
    rw [List.nil_append]
    unfold position?
    split
    · next rest =>
      have digit := decimal '+' List.mem_cons_self
      exact absurd digit (by decide)
    · exact kept
  · exact kept

/-- What is read as a position is a small number, with or without a plus sign. -/
theorem exists_decimal_of_position? {i : Nat} (read : position? chars = some i) :
    ∃ sign digits, chars = sign ++ digits ∧ (sign = [] ∨ sign = ['+']) ∧ digits ≠ [] ∧
      (∀ c ∈ digits, c.isDigit = true) ∧ i = digitsValue digits ∧ i < twoTo 64 := by
  have number : ∀ {digits : List Char}, (decimal? digits).filter (· < indexBound) = some i →
      digits ≠ [] ∧ (∀ c ∈ digits, c.isDigit = true) ∧ i = digitsValue digits ∧ i < twoTo 64 := by
    intro digits found
    obtain ⟨value, small⟩ := Option.filter_eq_some_iff.1 found
    rw [decimal?] at value
    split at value
    · simp at value
    · next accepted =>
      simp only [Bool.or_eq_true, List.isEmpty_iff, Bool.not_eq_true', List.all_eq_false,
        not_or, not_exists, not_and, Bool.not_eq_true, Bool.not_eq_false] at accepted
      exact ⟨accepted.1, accepted.2, (Option.some.inj value).symm, of_decide_eq_true small⟩
  unfold position? at read
  split at read
  · next digits => exact ⟨['+'], digits, rfl, .inr rfl, number read⟩
  · exact ⟨[], chars, rfl, .inl rfl, number read⟩

/-- A field is read up to where the next step begins. -/
theorem readSegment_field {name : String} (named : name ≠ "")
    (plain : ∀ c ∈ name.toList, c ≠ '.' ∧ c ≠ '[') (begins : Begins after) :
    readSegment ('.' :: name.toList ++ after) = .ok (.field name, after) := by
  -- The name goes on up to its end, and no further.
  have inside : ∀ c ∈ name.toList, continuesField c = true := by
    intro c member
    obtain ⟨noPoint, noBracket⟩ := plain c member
    simp [continuesField, noPoint, noBracket]
  have taken : (name.toList ++ after).takeWhile continuesField = name.toList := by
    rw [List.takeWhile_append_of_pos inside]
    cases after with
    | nil => simp
    | cons c rest => simp [begins c rfl]
  have left : (name.toList ++ after).dropWhile continuesField = after := by
    rw [List.dropWhile_append_of_pos inside]
    cases after with
    | nil => simp
    | cons c rest => simp [begins c rfl]
  have filled : name.toList.isEmpty = false := by simpa using named
  rw [List.cons_append, readSegment]
  simp only [taken, left, filled, String.ofList_toList]
  rfl

/-- A key is read up to its closing bracket. -/
theorem readSegment_key {k : String} {body : List Char} (spelled : KeyBody body k.toList)
    (after : List Char) :
    readSegment ('[' :: '"' :: (body ++ ['"', ']']) ++ after) = .ok (.key k, after) := by
  -- The reader of the key stops at the quote, which leaves the bracket.
  have closed : body ++ ['"', ']'] ++ after = body ++ '"' :: (']' :: after) := by simp
  rw [List.cons_append, List.cons_append, closed, readSegment, readKey_of_keyBody spelled]
  simp

/-- A position is read up to its closing bracket. -/
theorem readSegment_index {sign digits : List Char} (signed : sign = [] ∨ sign = ['+'])
    (present : digits ≠ []) (decimal : ∀ c ∈ digits, c.isDigit = true)
    (small : digitsValue digits < twoTo 64) (after : List Char) :
    readSegment ('[' :: (sign ++ digits ++ [']']) ++ after) =
      .ok (.index (digitsValue digits), after) := by
  -- Neither the sign nor a digit is a closing bracket or a quote.
  have other : ∀ c ∈ sign ++ digits, c ≠ ']' ∧ c ≠ '"' := by
    intro c member
    rcases List.mem_append.1 member with inSign | inDigits
    · rcases signed with rfl | rfl
      · simp at inSign
      · obtain rfl := List.mem_singleton.1 inSign
        decide
    · have digit := decimal c inDigits
      constructor <;> rintro rfl <;> exact absurd digit (by decide)
  have inside : ∀ c ∈ sign ++ digits, (c != ']') = true := fun c member => by
    simpa using (other c member).1
  have taken : (sign ++ digits ++ ']' :: after).takeWhile (· != ']') = sign ++ digits := by
    rw [List.takeWhile_append_of_pos inside]
    simp
  have left : (sign ++ digits ++ ']' :: after).dropWhile (· != ']') = ']' :: after := by
    rw [List.dropWhile_append_of_pos inside]
    simp
  have whole : sign ++ digits ++ [']'] ++ after = sign ++ digits ++ ']' :: after := by simp
  rw [List.cons_append, whole]
  unfold readSegment
  split
  · next same => simp at same
  · next rest same =>
    -- The first character inside the brackets would be a quote.
    obtain ⟨first, others, begun⟩ := List.exists_cons_of_ne_nil
      (List.append_ne_nil_of_right_ne_nil sign present)
    have quote : first = '"' := by
      rw [begun, List.cons_append] at same
      exact (List.cons.inj (List.cons.inj same).2).1
    exact absurd quote (other first (begun ▸ List.mem_cons_self)).2
  · next rest _ same =>
    obtain rfl := (List.cons.inj same).2
    rw [taken, left, position?_of_decimal signed present decimal small]
  · next noIndex => exact absurd rfl (noIndex _)

/-- A piece in front of something that begins anew is read as its step. -/
theorem readSegment_of_piece {piece : List Char} (written : Piece segment piece)
    (begins : Begins after) : readSegment (piece ++ after) = .ok (segment, after) := by
  cases written with
  | field named plain => exact readSegment_field named plain begins
  | key spelled => exact readSegment_key spelled after
  | index signed present decimal small => exact readSegment_index signed present decimal small after

/-- What is read as a step is a piece that it can be written as. -/
theorem exists_piece_of_readSegment (read : readSegment chars = .ok (segment, after)) :
    ∃ piece, Piece segment piece ∧ chars = piece ++ after := by
  -- The branches of the reader are the kinds of pieces.
  unfold readSegment at read
  split at read
  · next rest =>
    -- A field is a name that is not empty.
    simp only at read
    split at read
    · simp at read
    · next filled =>
      obtain ⟨rfl, rfl⟩ := Prod.mk.inj (Except.ok.inj read)
      have named : String.ofList (rest.takeWhile continuesField) ≠ "" := by
        simpa using filled
      refine ⟨_, .field named fun c member => ?_, ?_⟩
      · rw [String.toList_ofList] at member
        have inside := List.all_eq_true.1 List.all_takeWhile c member
        simpa [continuesField] using inside
      · rw [String.toList_ofList, List.cons_append, List.takeWhile_append_dropWhile]
  · next rest =>
    -- A key was read to its quote, and the bracket was found behind that.
    split at read
    · simp at read
    · next key left found =>
      obtain ⟨rfl, rfl⟩ := Prod.mk.inj (Except.ok.inj read)
      obtain ⟨body, spelled, rfl⟩ := exists_keyBody_of_readKey found
      exact ⟨_, .key (by rwa [String.toList_ofList]), by simp⟩
    · simp at read
  · next rest _ =>
    -- A position is what stands in front of the closing bracket.
    split at read
    · simp at read
    · next closing left dropped =>
      split at read
      · next i found =>
        obtain ⟨rfl, rfl⟩ := Prod.mk.inj (Except.ok.inj read)
        obtain ⟨sign, digits, same, signed, present, decimal, rfl, small⟩ :=
          exists_decimal_of_position? found
        -- The search for the closing bracket stops at one.
        have closes : closing = ']' := by
          have stops := List.head?_dropWhile_not (· != ']') rest
          simpa [dropped] using stops
        refine ⟨_, .index signed present decimal small, ?_⟩
        have whole := List.takeWhile_append_dropWhile (p := (· != ']')) (l := rest)
        rw [dropped, same, closes] at whole
        simp [← whole]
      · simp at read
  · simp at read

end Steps

section Routes

variable {path : Path} {text : List Char}

/-- A written route is empty or begins with the beginning of a step. -/
theorem Written.begins (written : Written path text) : Begins text := by
  intro c first
  cases written with
  | root => simp at first
  | step piece rest =>
    -- The pieces begin with points and opening brackets.
    cases piece <;> obtain rfl : _ = c := Option.some.inj first <;> rfl

/-- Routes are joined by joining their texts. -/
theorem Written.append {other : Path} {more : List Char} (written : Written path text)
    (behind : Written other more) : Written (path ++ other) (text ++ more) := by
  induction written with
  | root => exact behind
  | step first _ ih =>
    rw [List.append_assoc]
    exact .step first ih

/-- Every step of a written route is written as a piece. -/
theorem Written.exists_piece {segment : Segment} (written : Written path text)
    (member : segment ∈ path) : ∃ piece, Piece segment piece := by
  induction written with
  | root => simp at member
  | step first _ ih =>
    rcases List.mem_cons.1 member with rfl | later
    · exact ⟨_, first⟩
    · exact ih later

/-- After its first step a route is read on from what the step leaves. -/
theorem ofChars_of_readSegment {segment : Segment} {chars after : List Char}
    (read : readSegment chars = .ok (segment, after)) :
    ofChars chars = (ofChars after).map (segment :: ·) := by
  cases chars with
  | nil => simp [readSegment] at read
  | cons c rest =>
    rw [ofChars]
    split
    · next defect failed => simp [read] at failed
    · next found left same =>
      obtain ⟨rfl, rfl⟩ := Prod.mk.inj (Except.ok.inj (same.symm.trans read))
      rfl

/-- The reader accepts every text of the grammar. -/
theorem Written.ofChars_eq (written : Written path text) : ofChars text = .ok path := by
  induction written with
  | root => rw [ofChars]
  | step first rest ih =>
    -- The rest begins with a step of its own, so the first piece is read no further.
    rw [ofChars_of_readSegment (readSegment_of_piece first rest.begins), ih]
    rfl

/-- The reader accepts nothing but texts of the grammar. -/
theorem written_of_ofChars (read : ofChars text = .ok path) : Written path text := by
  -- The induction is on what is left to read, one step at a time.
  fun_induction ofChars text generalizing path with
  | case1 =>
    obtain rfl : [] = path := Except.ok.inj read
    exact .root
  | case2 => simp at read
  | case3 c rest segment after found _ ih =>
    cases later : ofChars after with
    | error defect => simp [later, Except.map] at read
    | ok behind =>
      obtain rfl : segment :: behind = path := by simpa [later, Except.map] using read
      obtain ⟨piece, first, same⟩ := exists_piece_of_readSegment found
      rw [same]
      exact .step first (ih later)

/-- A text is read as a route exactly if the route is written so. -/
theorem read_eq_ok_iff {text : String} : read text = .ok path ↔ Written path text.toList := by
  have same : read text = .ok path ↔ ofChars text.toList = .ok path := by
    rw [read, ofText]
    cases ofChars text.toList <;> simp
  rw [same]
  exact ⟨written_of_ofChars, Written.ofChars_eq⟩

/-- A text that is not read as a route is refused as an invalid one. -/
theorem read_eq_invalidPath {text : String} (refused : ∀ path, read text ≠ .ok path) :
    ∃ defect, read text = .error (.invalidPath text defect) := by
  rw [read] at refused ⊢
  cases found : ofText text with
  | error defect => exact ⟨defect, rfl⟩
  | ok path => exact absurd (by rw [found]) (refused path)

/--
The reader of routes accepts exactly its grammar.

A text is read as a route if and only if it is one piece after another, one for each step of the
route; every other text is refused as an invalid path; and joined texts are read as joined routes.
-/
theorem reading_is_exact :
    (∀ text path, read text = .ok path ↔ Written path text.toList) ∧
    (∀ text, (∃ defect, read text = .error (.invalidPath text defect)) ↔
      ∀ path, ¬ Written path text.toList) ∧
    ∀ text more path other, read text = .ok path → read more = .ok other →
      read (text ++ more) = .ok (path ++ other) := by
  refine ⟨fun _ _ => read_eq_ok_iff, fun text => ⟨?_, fun none => ?_⟩, ?_⟩
  · rintro ⟨defect, refused⟩ path written
    rw [← read_eq_ok_iff, refused] at written
    simp at written
  · exact read_eq_invalidPath fun path accepted => none path (read_eq_ok_iff.1 accepted)
  · intro text more path other first second
    rw [read_eq_ok_iff, String.toList_append]
    exact (read_eq_ok_iff.1 first).append (read_eq_ok_iff.1 second)

end Routes

section RoundTrip

variable {path : Path}

/-- A key with its quotes and backslashes escaped spells the key. -/
theorem keyBody_escapeKey (key : List Char) : KeyBody (escapeKey key) key := by
  induction key with
  | nil => exact .done
  | cons c rest ih =>
    rw [escapeKey]
    split
    · -- A quote or a backslash is written as a pair.
      exact .pair c ih
    · next ordinary =>
      obtain ⟨noEscape, noQuote⟩ := not_or.1 ordinary
      exact .plain noEscape noQuote ih

/-- What can be told from its written form: a name that nothing cuts short, a number of 64 bits. -/
def IsTold : Segment → Prop
  | .field name => name ≠ "" ∧ '.' ∉ name.toList ∧ '[' ∉ name.toList
  | .index i => i < twoTo 64
  | .key _ => True

/-- Only steps that can be told are written as pieces. -/
theorem Piece.isTold {segment : Segment} {piece : List Char} (written : Piece segment piece) :
    IsTold segment := by
  cases written with
  | field named plain =>
    exact ⟨named, fun point => (plain _ point).1 rfl, fun bracket => (plain _ bracket).2 rfl⟩
  | key _ => trivial
  | index _ _ _ small => exact small

/-- The written form of a step that can be told is a piece. -/
theorem IsTold.piece {segment : Segment} (told : IsTold segment) :
    Piece segment segment.chars := by
  cases segment with
  | field name =>
    obtain ⟨named, noPoint, noBracket⟩ := told
    refine .field named fun c member => ⟨?_, ?_⟩
    · rintro rfl
      exact noPoint member
    · rintro rfl
      exact noBracket member
  | index i =>
    -- The digits of a number have its value, and are written without a sign.
    have small : digitsValue (digitsOf i) < twoTo 64 := by rwa [digitsValue_digitsOf]
    have piece := Piece.index (.inl rfl) (digitsOf_ne_nil i)
      (fun _ member => isDigit_of_mem_digitsOf member) small
    rwa [digitsValue_digitsOf] at piece
  | key k =>
    have piece := Piece.key (keyBody_escapeKey k.toList)
    simpa [Segment.chars] using piece

/-- A route of steps that can be told is written as its text. -/
theorem written_text (told : ∀ segment ∈ path, IsTold segment) :
    Written path path.text.toList := by
  rw [text, String.toList_ofList]
  induction path with
  | nil => exact .root
  | cons segment rest ih =>
    obtain ⟨first, later⟩ := List.forall_mem_cons.1 told
    exact .step first.piece (ih later)

/-- A route is read back from its text exactly if each of its steps can be told. -/
theorem read_text_iff : read path.text = .ok path ↔ ∀ segment ∈ path, IsTold segment := by
  rw [read_eq_ok_iff]
  constructor
  · intro written segment member
    obtain ⟨_, piece⟩ := written.exists_piece member
    exact piece.isTold
  · exact written_text

/--
Which routes are read back from their text.

Keys may be any texts, and positions any numbers of 64 bits. Of the fields every one must have a
name, without a point and without an opening bracket.
-/
theorem text_reads_back_iff (path : Path) :
    read path.text = .ok path ↔
      (∀ name, Segment.field name ∈ path →
        name ≠ "" ∧ '.' ∉ name.toList ∧ '[' ∉ name.toList) ∧
      ∀ i, Segment.index i ∈ path → i < twoTo 64 := by
  rw [read_text_iff]
  constructor
  · intro told
    exact ⟨fun name member => told _ member, fun i member => told _ member⟩
  · rintro ⟨fields, positions⟩ segment member
    cases segment with
    | field name => exact fields name member
    | index i => exact positions i member
    | key k => trivial

end RoundTrip

end Triversion.Path
