import Triversion.Graph.Dot

/-!
What a document shows of its nodes can be read back from it.

Every piece of a document can be told from whatever follows it: a name ends at its quote, escaped
text at the bracket behind it, and rows, edges and boxes begin unlike what ends a list of them. So
no text that a node carries can be taken for a part of the layout.
-/

namespace Triversion.Dot

/-- What a document shows of a node. -/
@[ext] structure Shown where
  name : String
  operation : Operation
  labels : Labels
  /-- The field and the target of every reference. -/
  references : List (String × String)
  deriving DecidableEq

/-- What a document shows of this node, whose references may be unknown. -/
def shown (node : Node) : Shown where
  name := node.id.text
  operation := node.operation
  labels := shownLabels node
  references := (Graph.referencesOf node).map fun reference =>
    (reference.path.text, reference.target.text)

/-- Whether a text can stand between quotes. -/
def Quotable (text : String) : Prop :=
  '"' ∉ text.toList

instance (text : String) : Decidable (Quotable text) :=
  inferInstanceAs (Decidable ('"' ∉ text.toList))

/-- Whether all names that stand between quotes for a node can do so. -/
structure IsQuotable (node : Node) : Prop where
  name : Quotable node.id.text
  targets : ∀ reference ∈ Graph.referencesOf node, Quotable reference.target.text

instance (node : Node) : Decidable (IsQuotable node) :=
  decidable_of_iff
    (Quotable node.id.text ∧
      ∀ reference ∈ Graph.referencesOf node, Quotable reference.target.text)
    ⟨fun quotable => ⟨quotable.1, quotable.2⟩, fun quotable => ⟨quotable.name, quotable.targets⟩⟩

section Told

variable {α β : Type} {valid : α → Prop} {view : α → β} {write : α → List Char}

/-- The written form of a thing can be told from whatever follows it, and shows a view of it. -/
def Told (valid : α → Prop) (view : α → β) (write : α → List Char) : Prop :=
  ∀ a b, valid a → valid b → ∀ s t, write a ++ s = write b ++ t → view a = view b ∧ s = t

/-- A text ends at the first character that it does not hold. -/
theorem told_before {c : Char} {x y s t : List Char} (inX : c ∉ x) (inY : c ∉ y)
    (behindX : s.head? = some c) (behindY : t.head? = some c) (same : x ++ s = y ++ t) :
    x = y ∧ s = t := by
  -- One text cannot end where the other goes on, since the other lacks what stands there.
  obtain ⟨s, rfl⟩ := List.head?_eq_some_iff.1 behindX
  obtain ⟨t, rfl⟩ := List.head?_eq_some_iff.1 behindY
  induction x generalizing y with
  | nil =>
    cases y with
    | nil => exact ⟨rfl, same⟩
    | cons d y => exact absurd ((List.cons.inj same).1 ▸ List.mem_cons_self) inY
  | cons d x ih =>
    cases y with
    | nil => exact absurd ((List.cons.inj same).1 ▸ List.mem_cons_self) inX
    | cons e y =>
      obtain ⟨rfl, later⟩ := List.cons.inj same
      obtain ⟨rfl, rest⟩ := ih (fun inside => inX (List.mem_cons_of_mem _ inside))
        (fun inside => inY (List.mem_cons_of_mem _ inside)) later
      exact ⟨rfl, rest⟩

/-- Things written one after another end before what does not begin like one of them. -/
theorem Told.flatMap (told : Told valid view write) {as bs : List α}
    (validAs : ∀ a ∈ as, valid a) (validBs : ∀ b ∈ bs, valid b) {s t : List Char}
    (endsAs : ∀ b, valid b → ¬ write b <+: s) (endsBs : ∀ a, valid a → ¬ write a <+: t)
    (same : as.flatMap write ++ s = bs.flatMap write ++ t) :
    as.map view = bs.map view ∧ s = t := by
  induction as generalizing bs with
  | nil =>
    cases bs with
    | nil => exact ⟨rfl, same⟩
    | cons b bs =>
      -- What follows the first list would begin with a thing of the second.
      refine absurd ?_ (endsAs b (validBs b List.mem_cons_self))
      exact ⟨bs.flatMap write ++ t, by simpa using same.symm⟩
  | cons a as ih =>
    cases bs with
    | nil =>
      refine absurd ?_ (endsBs a (validAs a List.mem_cons_self))
      exact ⟨as.flatMap write ++ s, by simpa using same⟩
    | cons b bs =>
      simp only [List.flatMap_cons, List.append_assoc] at same
      obtain ⟨first, later⟩ := told a b (validAs a List.mem_cons_self)
        (validBs b List.mem_cons_self) _ _ same
      obtain ⟨others, rest⟩ := ih (fun x inside => validAs x (List.mem_cons_of_mem _ inside))
        (fun x inside => validBs x (List.mem_cons_of_mem _ inside)) later
      exact ⟨by rw [List.map_cons, List.map_cons, first, others], rest⟩

/-- Things that show the same have the same written form, also as lists. -/
theorem flatMap_eq_of_view (determined : ∀ a b, view a = view b → write a = write b)
    {as bs : List α} (same : as.map view = bs.map view) : as.flatMap write = bs.flatMap write := by
  -- Equal views make the lists equally long, so they are compared thing by thing.
  induction as generalizing bs with
  | nil =>
    cases bs with
    | nil => rfl
    | cons b bs => cases same
  | cons a as ih =>
    cases bs with
    | nil => cases same
    | cons b bs =>
      obtain ⟨first, others⟩ := List.cons.inj same
      rw [List.flatMap_cons, List.flatMap_cons, determined a b first, ih others]

end Told

section Text

variable {a b : String} {s t : List Char}

/-- Reads one escaped character. -/
def readEscaped : List Char → Option (Char × List Char)
  | '&' :: 'a' :: 'm' :: 'p' :: ';' :: rest => some ('&', rest)
  | '&' :: 'l' :: 't' :: ';' :: rest => some ('<', rest)
  | '&' :: 'g' :: 't' :: ';' :: rest => some ('>', rest)
  | '&' :: 'q' :: 'u' :: 'o' :: 't' :: ';' :: rest => some ('"', rest)
  | c :: rest => some (c, rest)
  | [] => none

/-- An escaped character is read back, whatever follows it. -/
theorem readEscaped_escapeChar (c : Char) (rest : List Char) :
    readEscaped (escapeChar c ++ rest) = some (c, rest) := by
  -- Only the characters that are written as words begin with the sign of words.
  unfold escapeChar
  split
  · next same => rw [same]; rfl
  · next ordinary =>
    split
    · next same => rw [same]; rfl
    · split
      · next same => rw [same]; rfl
      · split
        · next same => rw [same]; rfl
        · rw [List.singleton_append]
          unfold readEscaped
          split <;> simp_all

/-- An escaped character can be told from what follows it. -/
theorem escapeChar_told : Told (fun _ => True) id escapeChar := by
  -- Reading one character back answers with the character and with what follows it.
  intro c d _ _ s t same
  have read := congrArg readEscaped same
  rw [readEscaped_escapeChar, readEscaped_escapeChar] at read
  exact Prod.mk.inj (Option.some.inj read)

/-- No escaped character begins like markup. -/
theorem escapeChar_never_begins {bracket : Char} (markup : bracket = '<' ∨ bracket = '>')
    (behind : s.head? = some bracket) (c : Char) : ¬ escapeChar c <+: s := by
  rintro ⟨more, same⟩
  -- A bracket is read as itself, but it would have been written as a word.
  have read := readEscaped_escapeChar c more
  obtain ⟨rest, rfl⟩ := List.head?_eq_some_iff.1 behind
  rw [same] at read
  rcases markup with rfl | rfl
  · obtain ⟨rfl, -⟩ := Prod.mk.inj (Option.some.inj read)
    exact absurd (List.cons.inj same).1 (by decide)
  · obtain ⟨rfl, -⟩ := Prod.mk.inj (Option.some.inj read)
    exact absurd (List.cons.inj same).1 (by decide)

/-- Escaped texts end at the markup behind them, and show the text. -/
theorem escape_told {bracket : Char} (markup : bracket = '<' ∨ bracket = '>')
    (behindA : s.head? = some bracket) (behindB : t.head? = some bracket)
    (same : (escape a).toList ++ s = (escape b).toList ++ t) : a = b ∧ s = t := by
  -- An escaped text is its escaped characters, one after another.
  simp only [escape, String.toList_ofList] at same
  obtain ⟨texts, rest⟩ := escapeChar_told.flatMap (fun _ _ => trivial) (fun _ _ => trivial)
    (fun c _ => escapeChar_never_begins markup behindA c)
    (fun c _ => escapeChar_never_begins markup behindB c) same
  rw [List.map_id, List.map_id, String.toList_inj] at texts
  exact ⟨texts, rest⟩

/-- A name ends at the quote behind it, and shows itself. -/
theorem quoted_told (quotableA : Quotable a) (quotableB : Quotable b)
    (behindA : s.head? = some '"') (behindB : t.head? = some '"')
    (same : a.toList ++ s = b.toList ++ t) : a = b ∧ s = t := by
  obtain ⟨texts, rest⟩ := told_before quotableA quotableB behindA behindB same
  exact ⟨String.toList_inj.1 texts, rest⟩

end Text

section Lines

/-- A quoted name can be told from what follows it. -/
theorem nodeName_told :
    Told (fun id : Identity => Quotable id.text) Identity.text fun id => (nodeName id).toList := by
  intro a b quotableA quotableB s t same
  simp only [nodeName, String.toList_append, List.append_assoc] at same
  obtain ⟨names, rest⟩ := quoted_told quotableA quotableB (by simp) (by simp)
    (List.append_cancel_left same)
  exact ⟨names, List.append_cancel_left rest⟩

/-- How the line of an edge is laid out. -/
theorem toList_edge (source : Identity) (reference : Reference) : (edge source reference).toList =
    "  ".toList ++ ((nodeName source).toList ++ (" -> ".toList ++
      ((nodeName reference.target).toList ++ (" [label=<".toList ++
        ((escape reference.path.text).toList ++ ">]\n".toList))))) := by
  unfold edge
  simp only [String.toList_append, List.append_assoc]

/-- What the line of an edge shows. -/
def shownArrow (arrow : Identity × Reference) : String × String × String :=
  (arrow.1.text, arrow.2.path.text, arrow.2.target.text)

/-- The line of an edge can be told from what follows it. -/
theorem edge_told :
    Told (fun arrow => Quotable arrow.1.text ∧ Quotable arrow.2.target.text) shownArrow
      fun arrow => (edge arrow.1 arrow.2).toList := by
  intro a b quotable quotable' s t same
  simp only [toList_edge, List.append_assoc] at same
  -- Both names end at their quotes, and the field at the bracket that closes the label.
  obtain ⟨sources, later⟩ := nodeName_told _ _ quotable.1 quotable'.1 _ _
    (List.append_cancel_left same)
  obtain ⟨targets, label⟩ := nodeName_told _ _ quotable.2 quotable'.2 _ _
    (List.append_cancel_left later)
  obtain ⟨paths, rest⟩ := escape_told (.inr rfl) (by simp) (by simp)
    (List.append_cancel_left label)
  exact ⟨Prod.ext sources (Prod.ext paths targets), List.append_cancel_left rest⟩

/-- Edges that show the same are written the same. -/
theorem edge_eq_of_shownArrow {a b : Identity × Reference} (same : shownArrow a = shownArrow b) :
    edge a.1 a.2 = edge b.1 b.2 := by
  obtain ⟨sources, rest⟩ := Prod.mk.inj same
  obtain ⟨paths, targets⟩ := Prod.mk.inj rest
  rw [edge, edge, nodeName, nodeName, nodeName, nodeName, sources, paths, targets]

/-- How the line of a label is laid out. -/
theorem toList_row (label : String × String) : (row label).toList =
    "      <tr><td>".toList ++ ((escape label.1).toList ++
      ("</td><td align=\"left\">".toList ++ ((escape label.2).toList ++
        "</td></tr>\n".toList))) := by
  unfold row
  simp only [String.toList_append, List.append_assoc]

/-- The line of a label can be told from what follows it. -/
theorem row_told : Told (fun _ => True) id fun label => (row label).toList := by
  intro a b _ _ s t same
  simp only [toList_row, List.append_assoc] at same
  -- Both cells end at the markup that closes them.
  obtain ⟨keys, later⟩ := escape_told (.inl rfl) (by simp) (by simp) (List.append_cancel_left same)
  obtain ⟨texts, rest⟩ := escape_told (.inl rfl) (by simp) (by simp) (List.append_cancel_left later)
  exact ⟨Prod.ext keys texts, List.append_cancel_left rest⟩

/-- No line of a label begins like the line that ends a table. -/
theorem row_never_begins_end (label : String × String) (s : List Char) :
    ¬ (row label).toList <+: "    </table>\n".toList ++ s := by
  -- The row is set in deeper, so the two differ in their fifth character.
  rintro ⟨more, same⟩
  simp [toList_row] at same

end Lines

section Boxes

/-- The word for a colour tells its operation. -/
theorem color_injective {operation other : Operation} (same : color operation = color other) :
    operation = other := by
  revert same
  cases operation <;> cases other <;> decide

/-- A word for a colour ends at the comma behind it. -/
theorem color_told {operation other : Operation} {s t : List Char}
    (behind : s.head? = some ',') (behind' : t.head? = some ',')
    (same : (color operation).toList ++ s = (color other).toList ++ t) :
    operation = other ∧ s = t := by
  -- The words are letters and digits alone.
  have word : ∀ operation, ',' ∉ (color operation).toList := by
    intro operation
    cases operation <;> decide
  obtain ⟨colors, rest⟩ := told_before (word operation) (word other) behind behind' same
  exact ⟨color_injective (String.toList_inj.1 colors), rest⟩

/-- How the lines of a box are laid out. -/
theorem toList_box (node : Node) : (box node).toList =
    "  ".toList ++ ((nodeName node.id).toList ++ (" [label=<\n".toList ++
      ("    <table border=\"0\">\n".toList ++
      ("      <tr><td colspan=\"2\"><font point-size=\"16\">\\N</font></td></tr>\n".toList ++
      ("      <tr><td colspan=\"2\">---</td></tr>\n".toList ++
      ((shownLabels node).entries.flatMap (fun label => (row label).toList) ++
      ("    </table>\n".toList ++ ("  >,color=".toList ++ ((color node.operation).toList ++
        ",shape=box,style=filled]\n".toList))))))))) := by
  unfold box
  simp only [String.toList_append, List.append_assoc, String.toList_join, List.flatMap_map]

/-- What the lines of a box show. -/
def shownBox (node : Node) : String × Operation × Labels :=
  ((shown node).name, (shown node).operation, (shown node).labels)

/-- The lines of a box can be told from what follows them. -/
theorem box_told :
    Told (fun node => Quotable node.id.text) shownBox fun node => (box node).toList := by
  intro a b quotableA quotableB s t same
  simp only [toList_box, List.append_assoc] at same
  -- The name ends at its quote, the labels at the end of the table, the colour at its comma.
  obtain ⟨names, table⟩ := nodeName_told _ _ quotableA quotableB _ _
    (List.append_cancel_left same)
  simp only [List.append_cancel_left_eq] at table
  obtain ⟨labels, later⟩ := row_told.flatMap (fun _ _ => trivial) (fun _ _ => trivial)
    (fun label _ => row_never_begins_end label _) (fun label _ => row_never_begins_end label _)
    table
  simp only [List.append_cancel_left_eq] at later
  obtain ⟨operations, rest⟩ := color_told (by simp) (by simp) later
  rw [List.map_id, List.map_id] at labels
  exact ⟨Prod.ext names (Prod.ext operations (Labels.entries_injective labels)),
    List.append_cancel_left rest⟩

/-- Nodes that show the same have the same box. -/
theorem box_eq_of_shown {a b : Node} (same : shown a = shown b) : box a = box b := by
  have names : a.id.text = b.id.text := congrArg Shown.name same
  have operations : a.operation = b.operation := congrArg Shown.operation same
  have labels : shownLabels a = shownLabels b := congrArg Shown.labels same
  rw [← String.toList_inj, toList_box, toList_box, nodeName, nodeName, names, operations, labels]

/-- No edge begins like a box. -/
theorem edge_never_begins_box {node : Node} {arrow : Identity × Reference}
    (quotable : Quotable node.id.text) (quotableSource : Quotable arrow.1.text) (s : List Char) :
    ¬ (edge arrow.1 arrow.2).toList <+: (box node).toList ++ s := by
  rintro ⟨more, same⟩
  simp only [toList_edge, toList_box, List.append_assoc] at same
  -- Behind the name, an edge goes on with an arrow and a box with its label.
  obtain ⟨-, later⟩ := nodeName_told _ _ quotableSource quotable _ _
    (List.append_cancel_left same)
  simp at later

end Boxes

section Nodes

/-- The edges of a node, each with the node itself as its source. -/
def arrows (node : Node) : List (Identity × Reference) :=
  (Graph.referencesOf node).map (Prod.mk node.id)

/-- The edges of a node show its references behind its own name. -/
theorem shownArrow_arrows (node : Node) :
    (arrows node).map shownArrow = (shown node).references.map (Prod.mk (shown node).name) := by
  simp only [arrows, shown, List.map_map]
  rfl

/-- The edges of a node have names that can stand between quotes if the node has. -/
theorem IsQuotable.arrows {node : Node} (quotable : IsQuotable node) :
    ∀ arrow ∈ arrows node, Quotable arrow.1.text ∧ Quotable arrow.2.target.text := by
  intro arrow inside
  obtain ⟨reference, listed, rfl⟩ := List.mem_map.1 inside
  exact ⟨quotable.name, quotable.targets reference listed⟩

/-- How a node is laid out: its edges and then its box. -/
theorem toList_nodeText (node : Node) : (nodeText node).toList =
    (arrows node).flatMap (fun arrow => (edge arrow.1 arrow.2).toList) ++ (box node).toList := by
  unfold nodeText arrows
  simp only [String.toList_append, String.toList_join, List.flatMap_map]

/-- The lines of a node can be told from what follows them, and show the node. -/
theorem nodeText_told : Told IsQuotable shown fun node => (nodeText node).toList := by
  intro a b quotableA quotableB s t same
  simp only [toList_nodeText, List.append_assoc] at same
  -- The edges end at the box, which has the name and the labels.
  obtain ⟨edges, boxes⟩ := edge_told.flatMap quotableA.arrows quotableB.arrows
    (fun arrow valid => edge_never_begins_box quotableA.name valid.1 s)
    (fun arrow valid => edge_never_begins_box quotableB.name valid.1 t) same
  obtain ⟨box, rest⟩ := box_told _ _ quotableA.name quotableB.name _ _ boxes
  simp only [shownBox, Prod.mk.injEq] at box
  obtain ⟨names, operations, labels⟩ := box
  -- The edges of the two nodes stand behind the same name.
  rw [shownArrow_arrows, shownArrow_arrows, names] at edges
  have references := List.map_inj_right (fun _ _ same => (Prod.mk.inj same).2) |>.1 edges
  exact ⟨Shown.ext names operations labels references, rest⟩

/-- Nodes that show the same are written the same. -/
theorem nodeText_eq_of_shown {a b : Node} (same : shown a = shown b) : nodeText a = nodeText b := by
  rw [← String.toList_inj, toList_nodeText, toList_nodeText]
  have edges : (arrows a).map shownArrow = (arrows b).map shownArrow := by
    rw [shownArrow_arrows, shownArrow_arrows, same]
  rw [flatMap_eq_of_view (fun _ _ shows => by rw [edge_eq_of_shownArrow shows]) edges,
    box_eq_of_shown same]

/-- Whether it has edges or not, a node begins with a blank. -/
theorem nodeText_begins_blank (node : Node) : [' '] <+: (nodeText node).toList := by
  rw [toList_nodeText]
  cases arrows node with
  | nil =>
    rw [toList_box]
    exact ⟨_, rfl⟩
  | cons arrow others =>
    rw [List.flatMap_cons, toList_edge]
    exact ⟨_, rfl⟩

/-- No node begins like the end of a document. -/
theorem nodeText_never_begins_end (node : Node) : ¬ (nodeText node).toList <+: "\x7d\n".toList := by
  intro ending
  exact absurd ((nodeText_begins_blank node).trans ending) (by decide)

/-- How a document is laid out. -/
theorem toList_document (nodes : List Node) : (document nodes).toList =
    "digraph G \x7b\n".toList ++ ("  rankdir=TB\n".toList ++
      (nodes.flatMap (fun node => (nodeText node).toList) ++ "\x7d\n".toList)) := by
  unfold document
  simp only [String.toList_append, String.toList_join, List.flatMap_map, List.append_assoc]

/-- A document tells what is shown of every node, whatever text the nodes carry, and no more. -/
theorem document_shows_nodes {nodes others : List Node}
    (quotable : ∀ node ∈ nodes, IsQuotable node)
    (quotableOthers : ∀ node ∈ others, IsQuotable node) :
    document nodes = document others ↔ nodes.map shown = others.map shown := by
  -- All documents begin and end alike, so that the nodes between can be told one by one.
  rw [← String.toList_inj, toList_document, toList_document]
  constructor
  · intro same
    simp only [List.append_cancel_left_eq] at same
    obtain ⟨sights, -⟩ := nodeText_told.flatMap quotable quotableOthers
      (fun node _ => nodeText_never_begins_end node)
      (fun node _ => nodeText_never_begins_end node) same
    exact sights
  · intro same
    rw [flatMap_eq_of_view (fun _ _ shows => by rw [nodeText_eq_of_shown shows]) same]

/-- A label that looks like the end of its own row and a row behind it is no row. -/
theorem document_shows_nodes_of_forged_row :
    let plain := Node.plain ⟨"p", "addresses", "a", .global⟩ .update
    let forged := plain.withLabel "k" "</td></tr>\n      <tr><td>l</td><td align=\"left\">"
    let honest := (plain.withLabel "k" "").withLabel "l" ""
    (∀ node ∈ [forged], IsQuotable node) ∧ (∀ node ∈ [honest], IsQuotable node) ∧
      document [forged] ≠ document [honest] := by
  intro plain forged honest
  have quotable : ∀ node ∈ [forged], IsQuotable node := by decide +kernel
  have quotableHonest : ∀ node ∈ [honest], IsQuotable node := by decide +kernel
  refine ⟨quotable, quotableHonest, fun same => ?_⟩
  exact absurd ((document_shows_nodes quotable quotableHonest).1 same) (by decide +kernel)

end Nodes

end Triversion.Dot
