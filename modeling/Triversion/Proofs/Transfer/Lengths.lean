import Triversion.Proofs.Transfer.Arrival
import Triversion.Proofs.Transfer.Scalars

/-!
Sequences keep their lengths.

A sequence of the destination ends with as many items as the source has there, unless something is
reported at it, inside it or around it. The exception is an empty sequence: it takes the items one
by one if they are refused together, and drops those without information that its type refuses.
-/

namespace Triversion

open Shape MergeCall

/-- An item that is refused on top of whatever stands is reported at its position. -/
theorem mem_salvageItems_of_refused {accepts : Value → Bool} {path : Path} {item : Value}
    (refused : ∀ (candidate : Value) there, candidate.at? path = some (.array there) →
      accepts (candidate.modifyAt path (Value.pushItem item)) = false)
    (filled : item.isBlank = false) {candidate : Value} {there items : List Value}
    (here : candidate.at? path = some (.array there)) {i start : Nat}
    (found : items[i]? = some item) :
    ⟨path.index (start + i), item⟩ ∈ (salvageItems accepts path start candidate items).2 := by
  induction items generalizing i start candidate there with
  | nil => simp at found
  | cons first rest ih =>
    cases i with
    | zero =>
      obtain rfl : first = item := by simpa using found
      rw [salvageItems, refused candidate there here, if_neg Bool.false_ne_true]
      exact List.mem_append_left _ (by simp [lossOf, filled])
    | succ i =>
      have later : rest[i]? = some item := by simpa using found
      rw [show start + (i + 1) = start + 1 + i by omega, salvageItems]
      -- The items behind the first one are tried with or without it.
      split
      · have trial : (candidate.modifyAt path (Value.pushItem first)).at? path =
            some (.array (there ++ [first])) := by
          rw [Value.at?_modifyAt, here]
          rfl
        exact ih trial later
      · exact List.mem_append_right _ (ih here later)

section Lengths

variable {root shape item : Shape} {old candidate settled : Value} {rules : MergeRules}
  {whole : Merged Value} {losses : List Loss} {path : Path} {items : List Value}
  {names : List String}

/-- A sequence that is merged item by item has as many items as the source in every candidate. -/
theorem length_of_composes (drawn : Drawn whole candidate) {there : List Value}
    (sits : Sits rules whole ⟨.array there, path, .array items⟩) (filled : there ≠ []) :
    ∃ kept, candidate.at? path = some (.array kept) ∧ kept.length = items.length := by
  have composes : Composes rules ⟨.array there, path, .array items⟩ := .sequence filled
  obtain ⟨part, stands, isArray, _⟩ := sits.exists_part drawn composes
  obtain ⟨kept, rfl⟩ := Value.isArray_iff.1 isArray
  have step : ∀ i, (Value.array kept).step? (.index i) = kept[i]? := fun _ => rfl
  refine ⟨kept, stands, Nat.le_antisymm (Nat.not_lt.1 fun longer => ?_)
    (Nat.not_lt.1 fun shorter => ?_)⟩
  · -- Every position of the candidate is one of the merge, and so one of the source.
    obtain ⟨merged, leads⟩ := sits.exists_step? drawn composes stands
      ((step items.length).trans (List.getElem?_eq_getElem longer))
    obtain ⟨next, makes⟩ := exists_makes_item filled leads
    have given : items[items.length]? = some next.given := makes.given sits.formed
    simp at given
  · -- And every position of the source has a call of its own.
    obtain ⟨first, others, rfl⟩ := List.exists_cons_of_ne_nil filled
    obtain ⟨part, leads⟩ :=
      (sits.makes (.item (List.getElem?_eq_getElem shorter))).exists_at? drawn
    have held : kept[kept.length]? = some part := by
      rw [← step, ← Value.at?_concat stands]
      exact leads
    simp at held

/-- An item that a sequence is accepted with on top of others is accepted by itself. -/
theorem rebuild_isSome_of_push (along : AnchoredAlong (Path.ofNames names) root)
    (reached : Reaches (Path.ofNames names) root shape) (enters : Enters (.index 0) shape item)
    {before v : Value} {there : List Value}
    (here : before.at? (Path.ofNames names) = some (.array there))
    (accepted : (root.rebuild
      (before.modifyAt (Path.ofNames names) (Value.pushItem v))).isSome = true) :
    (item.rebuild v).isSome = true := by
  obtain ⟨w, rebuilt⟩ := Option.isSome_iff_exists.1 accepted
  have pushed : (before.modifyAt (Path.ofNames names) (Value.pushItem v)).at?
      (Path.ofNames names) = some (.array (there ++ [v])) := by
    rw [Value.at?_modifyAt, here]
    rfl
  obtain ⟨kept, within, _⟩ := reached.stands along rebuilt pushed
  exact enters.rebuild_array_isSome.1 (Option.isSome_of_eq_some within) v (by simp)

/-- An empty sequence takes all items, if nothing is reported of them and no blank is refused. -/
theorem stands_of_items (into : CopiedInto root old rules whole candidate settled losses)
    (all : rules.exclusions = .none) (along : AnchoredAlong (Path.ofNames names) root)
    (reached : Reaches (Path.ofNames names) root shape) (enters : Enters (.index 0) shape item)
    (sits : Sits rules whole ⟨.array [], Path.ofNames names, .array items⟩)
    (fits : ∀ v ∈ items, v.isBlank = true → (item.rebuild v).isSome = true)
    (silent : ∀ loss ∈ losses, ¬ Path.ofNames names <+: loss.path) :
    candidate.at? (Path.ofNames names) = some (.array items) := by
  obtain ⟨found, written⟩ := sits.written .items
  have same := Exclusions.strip_none (Path.ofNames names) (.array items)
  rw [Exclusions.strip] at same
  rw [all, same] at found
  by_cases each : ∀ v ∈ items, (item.rebuild v).isSome = true
  · exact into.stands_of_fits along reached written found (enters.rebuild_array_isSome.2 each)
  · -- An item that the type refuses carries information, and would be reported.
    obtain ⟨v, member, refused⟩ : ∃ v ∈ items, (item.rebuild v).isSome = false := by
      simpa using each
    have filled : v.isBlank = false :=
      Bool.eq_false_iff.2 fun blank => by simp [fits v member blank] at refused
    obtain ⟨i, position⟩ := List.getElem?_of_mem member
    cases into.tried _ written with
    | stands same => exact same.trans found
    | @refused before _ _ back _ _ reported =>
      have always : ∀ (before : Value) there,
          before.at? (Path.ofNames names) = some (.array there) →
            (root.rebuild (before.modifyAt (Path.ofNames names) (Value.pushItem v))).isSome =
              false := fun before there here => Bool.eq_false_iff.2 fun accepted => by
        simp [rebuild_isSome_of_push along reached enters here accepted] at refused
      have salvaged : ⟨(Path.ofNames names).index (0 + i), v⟩ ∈
          (salvageItems (fun v => (root.rebuild v).isSome) (Path.ofNames names) 0 before items).2 :=
        mem_salvageItems_of_refused always filled back position
      rw [salvageWrite, found] at reported
      exact absurd (List.prefix_append _ _) (silent _ (reported salvaged))

/--
A sequence that a merge arrives with keeps its length, or there is none in the end.

Without a report, only one without items is not kept, or one inside of what is lost as a whole.
-/
theorem length_of_arrives (into : CopiedInto root old rules whole candidate settled losses)
    (all : rules.exclusions = .none) (along : AnchoredAlong (Path.ofNames names) root)
    (reached : Reaches (Path.ofNames names) root shape) (enters : Enters (.index 0) shape item)
    (arrives : Arrives root old rules whole names shape (.array items))
    (fits : old.at? (Path.ofNames names) = some (.array []) →
      ∀ v ∈ items, v.isBlank = true → (item.rebuild v).isSome = true)
    (silent : ∀ loss ∈ losses, ¬ Path.ofNames names <+: loss.path) :
    (∃ kept, candidate.at? (Path.ofNames names) = some (.array kept) ∧
        kept.length = items.length) ∨
      settled.NothingAt (Path.ofNames names) ∧
        (items = [] ∨ ∃ loss ∈ losses, loss.path <+: Path.ofNames names) := by
  cases arrives with
  | @meets there filled pairs =>
    obtain ⟨sits, _, origin⟩ := pairs
    obtain ⟨held, rfl⟩ := enters.exists_array (into.fixed_at? along reached origin) filled
    refine .inl ?_
    cases held with
    | nil =>
      exact ⟨items, stands_of_items into all along reached enters sits (fits origin) silent, rfl⟩
    | cons first others => exact length_of_composes into.drawn sits (List.cons_ne_nil _ _)
  | @taken first rest reversal part middle route vacant onward written found within =>
    rw [all, Exclusions.strip_none] at found
    rw [route, Path.ofNames_append] at along ⊢
    rcases vacant.stands_or_gone into along.start written found with stands | ⟨gone, reported⟩
    · refine .inl ⟨items, ?_, rfl⟩
      rw [Value.at?_append, stands, Option.bind_some, within]
    · refine .inr ⟨gone.append _, ?_⟩
      -- What was taken is lost as a whole, which is silent only if it carries no information.
      cases blank : part.isBlank with
      | true =>
        have empty := Value.isBlank_of_at? blank within
        exact .inl (by rwa [Value.isBlank, List.isEmpty_iff] at empty)
      | false =>
        exact .inr ⟨⟨Path.ofNames first, part⟩, reported (by simp [lossOf, blank]),
          List.prefix_append _ _⟩

end Lengths

namespace Transfer

variable {σ δ : Type} {source : Codec σ} {codec : Codec δ} {root : Shape}

/--
Sequences keep their lengths.

At the end of an anchored route of struct fields a sequence of the new destination has as many items
as the source has there, if no loss is reported at it or inside of it. An old sequence without items
is the exception, unless its type accepts what the source has there without information. Instead of
an empty sequence there may be none, and there is none where what stands around it is lost as a
whole.
-/
theorem copy_keeps_lengths (follows : codec.Follows root) {src : σ} {dest new : δ}
    {there given : Value} (restores : codec.Restores dest there)
    (written : source.encode src = .ok given) (formed : given.WellFormed) {losses : List Loss}
    (copied : copy .none source codec src dest = ⟨.ok new, losses⟩) :
    ∃ settled, codec.encode new = .ok settled ∧ ∀ names inner item items,
      AnchoredAlong (Path.ofNames names) root → Reaches (Path.ofNames names) root inner →
      Enters (.index 0) inner item → (∀ name ∈ names, isBookkeeping name = false) →
      given.at? (Path.ofNames names) = some (.array items) →
      (∀ loss ∈ losses, ¬ Path.ofNames names <+: loss.path) →
      (there.at? (Path.ofNames names) = some (.array []) →
        ∀ v ∈ items, v.isBlank = true → (item.rebuild v).isSome = true) →
      (∃ kept, settled.at? (Path.ofNames names) = some (.array kept) ∧
          kept.length = items.length) ∨
        settled.NothingAt (Path.ofNames names) ∧
          (items = [] ∨ ∃ loss ∈ losses, loss.path <+: Path.ofNames names) := by
  obtain ⟨rules, whole, candidate, settled, all, again, into, arrives⟩ :=
    exists_copiedInto follows restores written formed copied
  refine ⟨settled, again, ?_⟩
  intro names inner item items along reached enters ordinary found silent fits
  have proper : names ≠ [] := by
    -- The source is a struct, or nothing would have been copied.
    rintro rfl
    obtain ⟨taken, _, _, _, _, _, encoded, _⟩ := copy_eq_ok copied
    rw [Except.ok.inj (written.symm.trans encoded)] at found
    exact Value.noConfusion (Option.some.inj found)
  have arrival :=
    arrives names inner _ proper along reached found rfl (Exclusions.leavesOpen_none ordinary)
  rcases length_of_arrives into all along reached enters arrival fits silent with
    ⟨held, stands, same⟩ | gone
  · -- The candidate has a sequence of this length, which is rebuilt as one.
    obtain ⟨w, rebuilt, solid⟩ := reached.stands along into.rebuilt stands
    obtain ⟨kept, rfl⟩ := enters.exists_array rebuilt rfl
    have length : kept.length = items.length :=
      (length_of_rebuild (along.last reached.leads) rebuilt).trans same
    cases settles : settled.at? (Path.ofNames names) with
    | some part =>
      have part_eq := reached.leads.rebuild along into.rebuilt stands settles
      obtain rfl := Option.some.inj (part_eq.symm.trans rebuilt)
      exact .inl ⟨kept, rfl, length⟩
    | none =>
      -- Only a sequence without items may be left out.
      cases kept with
      | nil => exact .inr ⟨.inl settles, .inl (List.length_eq_zero_iff.1 length.symm)⟩
      | cons first others => exact absurd (settles.symm.trans (solid rfl)) (by simp)
  · exact .inr gone

/-- A struct with one port. -/
private def onePort : Value :=
  .object [("Count", .null), ("Mode", .string ""), ("Ports", .array [.whole 1]),
    ("Rules", .object []), ("Size", .whole 0)]

/-- Ports of which one is a text without information. -/
private def gappedPorts : Value :=
  .object [("Ports", .array [.whole 80, .string "", .whole 443])]

/-- The ports of a plain struct are a list of numbers. -/
private theorem reaches_ports :
    Reaches (Path.ofNames ["Ports"]) Catalog.plain (.list (unsigned 32)) :=
  ⟨_, @Enters.field _ _ (field "Ports" (.list (unsigned 32))) (List.mem_cons_of_mem _
    (List.mem_cons_of_mem _ (List.mem_cons_of_mem _ List.mem_cons_self))), rfl⟩

/-- Ports that replace others keep their positions, although one of them is refused silently. -/
theorem copy_keeps_lengths_of_ports : ∃ new settled kept,
    copy .none (Shape.any.codec "Value") (Catalog.plain.codec "Plain") gappedPorts onePort =
      ⟨.ok new, []⟩ ∧
    (Catalog.plain.codec "Plain").encode new = .ok settled ∧
    settled.at? (Path.ofNames ["Ports"]) = some (.array kept) ∧ kept.length = 3 := by
  have succeeds : (copy .none (Shape.any.codec "Value") (Catalog.plain.codec "Plain") gappedPorts
      onePort).result.toOption.isSome = true := by decide +kernel
  have silent : (copy .none (Shape.any.codec "Value") (Catalog.plain.codec "Plain") gappedPorts
      onePort).losses = [] := by decide +kernel
  obtain ⟨new, yields⟩ := Option.isSome_iff_exists.1 succeeds
  have copied := outcome_of_toOption yields
  rw [silent] at copied
  have restores : (Catalog.plain.codec "Plain").Restores onePort onePort :=
    ⟨rfl, by rfl, by decide⟩
  obtain ⟨settled, written, keeps⟩ := copy_keeps_lengths (Shape.follows_codec "Plain" Catalog.plain)
    restores rfl (by decide) copied
  have along : AnchoredAlong (Path.ofNames ["Ports"]) Catalog.plain :=
    anchoredAlong_of_everywhere (by decide)
  rcases keeps ["Ports"] _ _ _ along reaches_ports (.item 0) (by decide) rfl (by simp)
    (fun empty => by simp [onePort, Value.at?, Value.step?, Keyed.get?] at empty) with
    ⟨kept, stands, length⟩ | ⟨_, unkept⟩
  · exact ⟨new, settled, kept, copied, written, stands, length⟩
  · simp at unkept

/-- Not every sequence keeps its length in silence: an empty one drops an item that says nothing. -/
theorem not_every_silent_copy_keeps_lengths :
    ¬ ∀ (σ δ : Type) (source : Codec σ) (codec : Codec δ) (root : Shape),
      codec.Follows root → root.everywhere isAnchored = true →
      ∀ (src : σ) (dest new : δ) (there given settled : Value) (losses : List Loss),
        codec.Restores dest there → source.encode src = .ok given → given.WellFormed →
        copy .none source codec src dest = ⟨.ok new, losses⟩ → codec.encode new = .ok settled →
        ∀ names inner item items, Reaches (Path.ofNames names) root inner →
          Enters (.index 0) inner item →
          given.at? (Path.ofNames names) = some (.array items) →
          (∀ loss ∈ losses, ¬ Path.ofNames names <+: loss.path) →
          ∃ kept, settled.at? (Path.ofNames names) = some (.array kept) ∧
            kept.length = items.length := by
  intro always
  have yields : (copy .none (Shape.any.codec "Value") (Catalog.plain.codec "Plain") gappedPorts
      Catalog.plain.initial).result.toOption = some (.object [("Count", .null),
        ("Mode", .string ""), ("Ports", .array [.whole 80, .whole 443]), ("Rules", .object []),
        ("Size", .whole 0)]) := by decide +kernel
  have silent : (copy .none (Shape.any.codec "Value") (Catalog.plain.codec "Plain") gappedPorts
      Catalog.plain.initial).losses = [] := by decide +kernel
  have copied := outcome_of_toOption yields
  rw [silent] at copied
  obtain ⟨kept, stands, length⟩ := always Value Value (Shape.any.codec "Value")
    (Catalog.plain.codec "Plain") _ (Shape.follows_codec "Plain" Catalog.plain) (by decide) _ _ _ _
    _ _ _ ⟨rfl, by rfl, by decide⟩ rfl (by decide) copied rfl ["Ports"] _ _ _ reaches_ports
    (.item 0) rfl (by simp)
  obtain rfl : [.whole 80, .whole 443] = kept := Value.array.inj (Option.some.inj stands)
  simp at length

end Transfer

end Triversion
