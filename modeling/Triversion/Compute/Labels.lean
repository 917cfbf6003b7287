import Triversion.Keyed

/-! Labels: text under text keys, each key once and in ascending order. -/

namespace Triversion

/-- A set of labels. -/
structure Labels where
  entries : List (String × String)
  ascending : Keyed.Ascending entries

namespace Labels

instance : DecidableEq Labels := fun a b =>
  decidable_of_iff (a.entries = b.entries)
    ⟨fun same => by cases a; cases b; simp_all, congrArg Labels.entries⟩

/-- Labels are the same if their entries are. -/
theorem entries_injective {labels others : Labels} (same : labels.entries = others.entries) :
    labels = others := by
  cases labels
  cases others
  simpa using same

/-- No labels. -/
def empty : Labels :=
  ⟨[], List.Pairwise.nil⟩

instance : Inhabited Labels :=
  ⟨empty⟩

/-- The labels of a list of entries, the last one of a repeated key. -/
def ofList (entries : List (String × String)) : Labels :=
  ⟨Keyed.ofList entries, Keyed.ascending_ofList entries⟩

/-- Sets one label. -/
def put (labels : Labels) (key text : String) : Labels :=
  ⟨Keyed.put key text labels.entries, Keyed.ascending_put labels.ascending⟩

/-- The text under a key. -/
def get? (labels : Labels) (key : String) : Option String :=
  Keyed.get? key labels.entries

end Labels

end Triversion
