import Triversion.Catalog
import Triversion.Proofs.Resource.Call
import Triversion.Proofs.Transfer.Replacement

/-!
Replacing the representation of a version.

Where the type of the version follows a replaceable shape, what the version held before leaves no
trace in it.
-/

namespace Triversion

namespace Resource

variable {R : Version → Type} {σ : Type}

/-- A replacement leaves the version with what its own copy made of it. -/
theorem get_replace {kind : Kind R σ} {resource : Resource R σ} {version : Version}
    {x copied : R version} (fits : (resource.ownCopy kind version x).result = .ok copied) :
    (resource.replace kind version x).1.values.get version = copied := by
  unfold ownCopy at fits
  simp only [replace, fits]
  -- The copies into the other versions leave this one alone.
  rw [(conveyAll_frame kind _ fun _ => Direction.mem_outbound_iff.1).1]
  exact resource.values.get_set_self version copied

/--
A copy within one type replaces the whole value.

Whatever the destination held before, it ends as the source, and nothing is lost on the way; so a
replaced representation is the one it was replaced by.
-/
theorem same_type_copy_replaces (kind : Kind R σ) (version : Version) {rule : RecordRule}
    {declared : List (FieldRule × Shape)}
    (follows : (kind.codec version).Follows (.record rule declared))
    (replaceable : (Shape.record rule declared).isReplaceable = true) {x y : R version}
    {old new : Value} (before : (kind.codec version).Restores x old)
    (after : (kind.codec version).Restores y new)
    (named : (Shape.record rule declared).wellNamed new = true) :
    Transfer.copy .none (kind.codec version) (kind.codec version) y x = ⟨.ok y, []⟩ ∧
      ∀ resource : Resource R σ, resource.values.get version = x →
        (resource.replace kind version y).1.values.get version = y := by
  have copied := Transfer.copy_of_restores follows replaceable before after named
  refine ⟨copied, fun resource holds => get_replace ?_⟩
  rw [ownCopy, holds, copied]

/-- A struct with labels, rules and a nested struct is replaced by one that lacks some of them. -/
theorem same_type_copy_replaces_of_source :
    Transfer.copy .none (Catalog.source.codec "Source") (Catalog.source.codec "Source")
        (.object [("FeatureFlag", .bool false), ("ForceSendFields", .strings ["FeatureFlag"]),
          ("Labels", .object [("a", .string "2"), ("b", .string "")]), ("Mode", .string ""),
          ("Name", .string "new"), ("Nested", .null), ("NullFields", .strings ["Nested"]),
          ("Rules", .array [.object [("Port", .whole 0), ("Protocol", .string "TCP")],
            .object [("Port", .whole 443), ("Protocol", .string "")]]),
          ("Size", .whole 0), ("Weight", .number (.float .zero))])
        (.object [("FeatureFlag", .bool true), ("ForceSendFields", .strings []),
          ("Labels", .object [("a", .string "1"), ("z", .string "26")]), ("Mode", .string "fast"),
          ("Name", .string "old"),
          ("Nested", .object [("Port", .whole 1), ("Protocol", .string "UDP")]),
          ("NullFields", .strings ["Mode"]),
          ("Rules", .array [.object [("Port", .whole 80), ("Protocol", .string "UDP")]]),
          ("Size", .whole 7), ("Weight", .number (.float .zero))]) =
      ⟨.ok (.object [("FeatureFlag", .bool false), ("ForceSendFields", .strings ["FeatureFlag"]),
          ("Labels", .object [("a", .string "2"), ("b", .string "")]), ("Mode", .string ""),
          ("Name", .string "new"), ("Nested", .null), ("NullFields", .strings ["Nested"]),
          ("Rules", .array [.object [("Port", .whole 0), ("Protocol", .string "TCP")],
            .object [("Port", .whole 443), ("Protocol", .string "")]]),
          ("Size", .whole 0), ("Weight", .number (.float .zero))]), []⟩ := by
  exact (same_type_copy_replaces (Kind.plain fun _ => Catalog.source.codec "Source") .stable
    (Shape.follows_codec "Source" Catalog.source) (by decide) ⟨rfl, by rfl, by decide⟩
    ⟨rfl, by rfl, by decide⟩ (by decide)).1

end Resource

end Triversion
