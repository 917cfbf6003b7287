import Mathlib.Data.List.DropRight
import Triversion.Fault

/-!
Which texts are resource URLs, and of which identities.

A URL is any text without the marker, then the relative name of an identity whose parts are neither
empty nor broken by a slash, and then any number of slashes. The reader accepts exactly these.
-/

namespace Triversion

/-- Text that can stand between two slashes of a URL: it is not empty, and no slash breaks it. -/
def IsUrlPart (text : String) : Prop :=
  text ≠ "" ∧ '/' ∉ text.toList

instance (text : String) : Decidable (IsUrlPart text) :=
  inferInstanceAs (Decidable (_ ∧ _))

namespace Scope

/-- Whether the region or the zone of a scope can stand in a URL. -/
def FitsUrl : Scope → Prop
  | .global => True
  | .regional region => IsUrlPart region
  | .zonal zone => IsUrlPart zone

/-- The parts of a URL that a scope fills. -/
def urlParts : Scope → List String
  | .global => ["global"]
  | .regional region => ["regions", region]
  | .zonal zone => ["zones", zone]

end Scope

namespace Identity

/-- Whether everything that a relative name spells out can stand in a URL. -/
structure FitsUrl (id : Identity) : Prop where
  project : IsUrlPart id.project
  kind : IsUrlPart id.kind
  name : IsUrlPart id.name
  scope : id.scope.FitsUrl

/-- Text in which the marker of relative names stands nowhere. -/
def Unmarked (text : String) : Prop :=
  ¬ marker <:+: text.toList

/-- Any number of slashes. -/
def slashes (count : Nat) : String :=
  String.ofList (List.replicate count '/')

/-- A text is a URL of an identity: its relative name behind text without a marker. -/
def IsUrlOf (url : String) (id : Identity) : Prop :=
  id.FitsUrl ∧ ∃ front count, Unmarked front ∧ url = front ++ id.relativeName ++ slashes count

section Marker

variable {chars front tail : List Char}

/-- The marker begins with a letter that stands nowhere else in it, so it overlaps with nothing. -/
theorem marker_eq : marker = 'p' :: "rojects/".toList := by
  decide

/-- What begins with the marker is found where it begins. -/
theorem fromMarker_of_begins (begins : marker <+: chars) : fromMarker chars = some chars := by
  cases chars with
  | nil => exact absurd (List.prefix_nil.1 begins) (by decide)
  | cons c rest => rw [fromMarker, if_pos (List.isPrefixOf_iff_prefix.2 begins)]

/-- Before a marker no other one begins inside text that holds none. -/
theorem not_begins_of_unmarked {c : Char} (unmarked : ¬ marker <:+: c :: front)
    (begins : marker <+: tail) : ¬ marker <+: (c :: front) ++ tail := by
  rintro ⟨more, same⟩
  rcases List.append_eq_append_iff.1 same with ⟨inside, within, -⟩ | ⟨left, across, behind⟩
  · -- A marker that ends within the text in front would be held by it.
    exact unmarked ⟨[], inside, by simp [within]⟩
  · cases left with
    | nil => exact unmarked ⟨[], [], by simpa using across⟩
    | cons first others =>
      -- A marker across the border would hold the first letter of the second one in its middle.
      obtain ⟨later, rfl⟩ := begins
      have letter : first = 'p' := by
        rw [marker_eq, List.cons_append] at behind
        exact (List.cons.inj behind).1.symm
      rw [marker_eq, letter] at across
      have middle : 'p' ∈ "rojects/".toList := by
        rw [(List.cons.inj across).2]
        simp
      exact absurd middle (by decide)

/-- The search ends at the marker that has none in front of it. -/
theorem fromMarker_eq_some_iff : fromMarker chars = some tail ↔
    ∃ front, ¬ marker <:+: front ∧ marker <+: tail ∧ chars = front ++ tail := by
  induction chars with
  | nil =>
    constructor
    · simp [fromMarker]
    · rintro ⟨front, -, begins, same⟩
      obtain ⟨-, rfl⟩ := List.append_eq_nil_iff.1 same.symm
      exact absurd (List.prefix_nil.1 begins) (by decide)
  | cons c rest ih =>
    by_cases here : marker <+: c :: rest
    · rw [fromMarker_of_begins here]
      constructor
      · intro same
        obtain rfl := Option.some.inj same
        exact ⟨[], by decide, here, rfl⟩
      · rintro ⟨front, unmarked, begins, same⟩
        cases front with
        | nil => exact congrArg some same
        | cons first others =>
          -- The marker at the beginning would stand in front of the other one.
          rw [same] at here
          exact absurd here (not_begins_of_unmarked unmarked begins)
    · have passed : fromMarker (c :: rest) = fromMarker rest := by
        rw [fromMarker, if_neg (by rwa [List.isPrefixOf_iff_prefix])]
      rw [passed, ih]
      constructor
      · rintro ⟨front, unmarked, begins, rfl⟩
        refine ⟨c :: front, fun inside => ?_, begins, rfl⟩
        rcases List.infix_cons_iff.1 inside with start | later
        · exact here (start.trans (List.prefix_append (c :: front) tail))
        · exact unmarked later
      · rintro ⟨front, unmarked, begins, same⟩
        cases front with
        | nil => exact absurd (same ▸ begins) here
        | cons first others =>
          obtain ⟨rfl, rfl⟩ := List.cons.inj same
          exact ⟨others, fun inside => unmarked (inside.trans (List.suffix_cons _ _).isInfix),
            begins, rfl⟩

/-- Text holds a marker exactly if the search finds one. -/
theorem fromMarker_eq_none_iff : fromMarker chars = none ↔ ¬ marker <:+: chars := by
  induction chars with
  | nil => simp [fromMarker, marker_eq]
  | cons c rest ih =>
    rw [fromMarker, List.infix_cons_iff, not_or]
    split
    · next begins => simp [List.isPrefixOf_iff_prefix.1 begins]
    · next begins => simp [ih, List.isPrefixOf_iff_prefix.not.1 begins]

end Marker

section Parts

variable {chars : List Char}

/-- A text ends in slashes behind what is left of it without them. -/
theorem exists_trimSlashes (chars : List Char) :
    ∃ count, chars = trimSlashes chars ++ List.replicate count '/' := by
  -- What is dropped at the end consists of slashes alone.
  have dropped : ∀ c ∈ chars.rtakeWhile (· == '/'), c = '/' := fun c member => by
    simpa using List.mem_rtakeWhile_imp member
  refine ⟨(chars.rtakeWhile (· == '/')).length, ?_⟩
  rw [← List.eq_replicate_length.2 dropped]
  exact (List.rdropWhile_append_rtakeWhile).symm

/-- Slashes behind a text that ends in another character are dropped, and nothing else. -/
theorem trimSlashes_append {last : Char} (other : last ≠ '/') (count : Nat) :
    trimSlashes (chars ++ [last] ++ List.replicate count '/') = chars ++ [last] := by
  induction count with
  | zero => simp [trimSlashes, other]
  | succ count ih =>
    rw [List.replicate_succ', ← List.append_assoc]
    simpa [trimSlashes] using ih

/-- The parts between slashes are those of splitting at slashes. -/
theorem parts_eq_splitOn (chars : List Char) : parts chars = chars.splitOn '/' := by
  induction chars with
  | nil => rfl
  | cons c rest ih =>
    rw [parts, ih, List.splitOn_cons_eq_if_modifyHead]
    by_cases slash : c = '/'
    · rw [if_pos slash, if_pos (by simpa using slash)]
    · rw [if_neg slash, if_neg (by simpa using slash)]
      cases split : rest.splitOn '/' with
      | nil => exact absurd split (List.splitOn_ne_nil '/' rest)
      | cons first others => rfl

/-- The parts with slashes between them are the whole text. -/
theorem intercalate_parts (chars : List Char) : ['/'].intercalate (parts chars) = chars := by
  rw [parts_eq_splitOn, List.intercalate_splitOn]

/-- No part holds a slash. -/
theorem slash_notMem_parts {part : List Char} (member : part ∈ parts chars) : '/' ∉ part := by
  -- A slash opens a part in front, and any other character joins the first one.
  induction chars generalizing part with
  | nil => simp_all [parts]
  | cons c rest ih =>
    rw [parts] at member
    split at member
    · rcases List.mem_cons.1 member with rfl | behind
      · simp
      · exact ih behind
    · next other =>
      have joined : ∀ first, '/' ∉ first → '/' ∉ c :: first := fun first free => by
        simp [Ne.symm other, free]
      split at member
      · rw [List.mem_singleton.1 member]
        exact joined [] List.not_mem_nil
      · next first others split =>
        rw [split] at ih
        rcases List.mem_cons.1 member with rfl | behind
        · exact joined first (ih List.mem_cons_self)
        · exact ih (List.mem_cons_of_mem _ behind)

end Parts

/-- The parts of a URL that a relative name fills. -/
def urlParts (id : Identity) : List String :=
  "projects" :: id.project :: (id.scope.urlParts ++ [id.kind, id.name])

/-- A relative name is its parts with slashes between them. -/
theorem toList_relativeName (id : Identity) :
    id.relativeName.toList = ['/'].intercalate (id.urlParts.map String.toList) := by
  obtain ⟨project, kind, name, scope⟩ := id
  unfold relativeName
  cases scope <;> simp [urlParts, Scope.text, Scope.urlParts]

/-- An identity fits into a URL exactly if each part that it fills can stand there. -/
theorem fitsUrl_iff {id : Identity} : id.FitsUrl ↔ ∀ part ∈ id.urlParts, IsUrlPart part := by
  have scope : id.scope.FitsUrl ↔ ∀ part ∈ id.scope.urlParts, IsUrlPart part := by
    -- The words for the sorts of scope can stand in a URL themselves.
    cases id.scope with
    | global =>
      have word : IsUrlPart "global" := by decide
      exact ⟨fun _ => by simpa [Scope.urlParts] using word, fun _ => trivial⟩
    | regional region =>
      simp only [Scope.FitsUrl, Scope.urlParts, List.forall_mem_cons, List.not_mem_nil,
        false_imp_iff, implies_true, and_true]
      exact ⟨fun fits => ⟨by decide, fits⟩, And.right⟩
    | zonal zone =>
      simp only [Scope.FitsUrl, Scope.urlParts, List.forall_mem_cons, List.not_mem_nil,
        false_imp_iff, implies_true, and_true]
      exact ⟨fun fits => ⟨by decide, fits⟩, And.right⟩
  simp only [urlParts, List.forall_mem_cons, List.forall_mem_append, List.not_mem_nil,
    false_imp_iff, implies_true, and_true]
  constructor
  · intro fits
    exact ⟨by decide, fits.project, scope.1 fits.scope, fits.kind, fits.name⟩
  · rintro ⟨-, project, place, kind, name⟩
    exact ⟨project, kind, name, scope.2 place⟩

/-- Parts spell an identity exactly if they are the ones that its relative name fills. -/
theorem ofParts?_eq_some_iff {pieces : List String} {id : Identity} :
    ofParts? pieces = some id ↔ pieces = id.urlParts := by
  constructor
  · intro spelled
    -- Each shape that is accepted is the one of a sort of scope.
    unfold ofParts? at spelled
    split at spelled
    · rw [← Option.some.inj spelled]; rfl
    · rw [← Option.some.inj spelled]; rfl
    · rw [← Option.some.inj spelled]; rfl
    · contradiction
  · rintro rfl
    obtain ⟨project, kind, name, scope⟩ := id
    cases scope <;> rfl

/-- The reader finds an identity exactly if the text from the first marker on spells it. -/
theorem ofUrl_eq_ok_iff {url : String} {id : Identity} : ofUrl url = .ok id ↔
    ∃ tail, fromMarker url.toList = some tail ∧ (∀ part ∈ id.urlParts, part ≠ "") ∧
      parts (trimSlashes tail) = id.urlParts.map String.toList := by
  unfold ofUrl
  cases fromMarker url.toList with
  | none => simp
  | some tail =>
    -- Parts as texts and parts as characters are the same parts.
    have spelled : (parts (trimSlashes tail)).map String.ofList = id.urlParts ↔
        parts (trimSlashes tail) = id.urlParts.map String.toList := by
      constructor
      · intro same
        rw [← same, List.map_map]
        simp [Function.comp_def]
      · intro same
        rw [same, List.map_map]
        simp [Function.comp_def]
    simp only [Option.some.injEq, exists_eq_left', ← spelled]
    split
    · next empty =>
      -- An empty part is refused, and no part of the identity may be empty.
      obtain ⟨part, member, nothing⟩ := List.any_eq_true.1 empty
      obtain rfl := List.isEmpty_iff.1 nothing
      constructor
      · simp
      · rintro ⟨filled, same⟩
        exact absurd rfl (filled "" (same ▸ List.mem_map_of_mem member))
    · next filled =>
      have none : ∀ part ∈ (parts (trimSlashes tail)).map String.ofList, part ≠ "" := by
        rintro _ member rfl
        obtain ⟨part, inside, nothing⟩ := List.mem_map.1 member
        exact filled (List.any_eq_true.2 ⟨part, inside, by simpa using nothing⟩)
      split
      · next found shaped =>
        rw [Except.ok.injEq, ← Option.some.injEq, ← shaped, ofParts?_eq_some_iff]
        exact ⟨fun same => ⟨same ▸ none, same⟩, And.right⟩
      · next misshapen =>
        constructor
        · simp
        · rintro ⟨-, same⟩
          rw [ofParts?_eq_some_iff.2 same] at misshapen
          contradiction

/-- A relative name begins with the marker. -/
theorem marker_prefix_relativeName (id : Identity) : marker <+: id.relativeName.toList := by
  unfold relativeName marker
  simp only [String.toList_append, List.append_assoc]
  exact List.prefix_append _ _

/-- A relative name whose parts fit into a URL ends in something other than a slash. -/
theorem exists_last_relativeName {id : Identity} (fits : id.FitsUrl) :
    ∃ before last, last ≠ '/' ∧ id.relativeName.toList = before ++ [last] := by
  -- The last character is that of the name.
  obtain ⟨named, free⟩ := fits.name
  obtain ⟨before, last, ends⟩ := List.eq_nil_or_concat id.name.toList |>.resolve_left (by simpa)
  unfold relativeName
  rw [String.toList_append, ends, List.concat_eq_append, ← List.append_assoc]
  refine ⟨_, last, ?_, rfl⟩
  rintro rfl
  exact free (by simp [ends])

/-- The reader accepts exactly the URLs. -/
theorem ofUrl_iff {url : String} {id : Identity} : ofUrl url = .ok id ↔ IsUrlOf url id := by
  rw [ofUrl_eq_ok_iff]
  constructor
  · rintro ⟨tail, found, filled, spelled⟩
    obtain ⟨front, unmarked, -, whole⟩ := fromMarker_eq_some_iff.1 found
    obtain ⟨count, ends⟩ := exists_trimSlashes tail
    refine ⟨fitsUrl_iff.2 fun part member => ⟨filled part member, ?_⟩,
      String.ofList front, count, by rwa [Unmarked, String.toList_ofList], ?_⟩
    · -- What splitting at slashes leaves holds no slash.
      exact slash_notMem_parts (spelled ▸ List.mem_map_of_mem member)
    · rw [← String.toList_inj, whole, ends, ← intercalate_parts (trimSlashes tail), spelled,
        ← toList_relativeName]
      simp [slashes]
  · rintro ⟨fits, front, count, unmarked, rfl⟩
    have whole := fitsUrl_iff.1 fits
    refine ⟨(id.relativeName ++ slashes count).toList, ?_, fun part member =>
      (whole part member).1, ?_⟩
    · refine fromMarker_eq_some_iff.2 ⟨front.toList, unmarked, ?_, ?_⟩
      · rw [String.toList_append]
        exact (marker_prefix_relativeName id).trans (List.prefix_append _ _)
      · simp
    · -- The slashes behind the name are dropped, and its own parts are told apart again.
      obtain ⟨before, last, other, ends⟩ := exists_last_relativeName fits
      have trimmed : trimSlashes (id.relativeName ++ slashes count).toList =
          id.relativeName.toList := by
        rw [String.toList_append, ends, slashes, String.toList_ofList]
        exact trimSlashes_append other count
      rw [trimmed, toList_relativeName, parts_eq_splitOn, List.splitOn_intercalate]
      · intro part member
        obtain ⟨text, listed, rfl⟩ := List.mem_map.1 member
        exact (whole text listed).2
      · simp [urlParts]

/-- A URL holds the marker. -/
theorem IsUrlOf.not_unmarked {url : String} {id : Identity} (names : IsUrlOf url id) :
    ¬ Unmarked url := by
  obtain ⟨-, front, count, -, rfl⟩ := names
  obtain ⟨rest, begins⟩ := marker_prefix_relativeName id
  intro unmarked
  exact unmarked ⟨front.toList, rest ++ (slashes count).toList, by simp [← begins]⟩

/-- A URL is not empty. -/
theorem IsUrlOf.ne_empty {url : String} {id : Identity} (names : IsUrlOf url id) : url ≠ "" := by
  rintro rfl
  exact names.not_unmarked (by simp [Unmarked, marker_eq])

/-- Reading a URL answers as its reader does. -/
theorem read_eq_ok_iff {url : String} {id : Identity} : read url = .ok id ↔ IsUrlOf url id := by
  rw [← ofUrl_iff, read]
  cases ofUrl url <;> simp

/-- A text that is read as no identity is refused as an invalid URL. -/
theorem read_eq_invalidUrl {url : String} (refused : ∀ id, read url ≠ .ok id) :
    ∃ defect, read url = .error (.invalidUrl url defect) := by
  rw [read] at refused ⊢
  cases found : ofUrl url with
  | error defect => exact ⟨defect, rfl⟩
  | ok id => exact absurd (by rw [found]) (refused id)

/--
Resource URLs are read exactly.

A text is read as an identity if and only if it is a URL of it. Behind any text without a marker,
the relative name of an identity is read as that identity exactly if its parts fit into a URL. Every
text that is a URL of nothing is refused as an invalid URL.
-/
theorem url_reading_is_exact :
    (∀ url id, read url = .ok id ↔ id.FitsUrl ∧
      ∃ front count, Unmarked front ∧ url = front ++ id.relativeName ++ slashes count) ∧
    (∀ front id, Unmarked front →
      (read (front ++ id.relativeName) = .ok id ↔ id.FitsUrl)) ∧
    ∀ url, (∃ defect, read url = .error (.invalidUrl url defect)) ↔
      ∀ (id : Identity) (front : String) (count : Nat), id.FitsUrl → Unmarked front →
        url ≠ front ++ id.relativeName ++ slashes count := by
  refine ⟨fun _ _ => read_eq_ok_iff, fun front id unmarked => ?_, fun url => ?_⟩
  · rw [read_eq_ok_iff]
    exact ⟨And.left, fun fits => ⟨fits, front, 0, unmarked, by simp [slashes]⟩⟩
  · constructor
    · rintro ⟨defect, refused⟩ id front count fits unmarked rfl
      have accepted := read_eq_ok_iff.2 ⟨fits, front, count, unmarked, rfl⟩
      rw [refused] at accepted
      contradiction
    · intro none
      refine read_eq_invalidUrl fun id accepted => ?_
      obtain ⟨fits, front, count, unmarked, same⟩ := read_eq_ok_iff.1 accepted
      exact none id front count fits unmarked same

/-- An identity whose parts are words that relative names consist of. -/
def ofKeywords : Identity :=
  ⟨"regions", "projects", "global", .zonal "zones"⟩

/-- Parts that look like the words of a relative name are told from these. -/
theorem url_reading_is_exact_of_keywords :
    (Unmarked "https://project/" ∧ ofKeywords.FitsUrl) ∧
      read "https://project/projects/regions/zones/zones/projects/global" = .ok ofKeywords := by
  have unmarked : Unmarked "https://project/" := by
    rw [Unmarked, ← fromMarker_eq_none_iff]
    decide
  have zone : IsUrlPart "zones" := by decide
  have fits : ofKeywords.FitsUrl := ⟨by decide, by decide, by decide, zone⟩
  have spelled : "https://project/projects/regions/zones/zones/projects/global" =
      "https://project/" ++ ofKeywords.relativeName := by
    decide +kernel
  refine ⟨⟨unmarked, fits⟩, ?_⟩
  rw [spelled]
  exact (url_reading_is_exact.2.1 _ _ unmarked).2 fits

end Identity

end Triversion
