import Triversion.Graph.Basic

/-!
Graphs as documents for drawing tools.

Every node is a filled box coloured by its operation, with its labels as rows of a table; every
reference is an edge labelled with the field that holds it.
-/

namespace Triversion.Dot

/-- How one character stands inside markup. -/
def escapeChar (c : Char) : List Char :=
  if c = '&' then "&amp;".toList
  else if c = '<' then "&lt;".toList
  else if c = '>' then "&gt;".toList
  else if c = '"' then "&quot;".toList
  else [c]

/-- Text inside markup. -/
def escape (text : String) : String :=
  String.ofList (text.toList.flatMap escapeChar)

/-- The colour of a box. -/
def color : Operation → String
  | .create => "chartreuse"
  | .delete => "lightcoral"
  | .recreate => "orange"
  | .update => "khaki1"
  | .nothing => "beige"
  | .unknown => "red"

/-- A name between double quotes. -/
def nodeName (id : Identity) : String :=
  "\"" ++ id.text ++ "\""

/-- The line of an edge. -/
def edge (source : Identity) (reference : Reference) : String :=
  "  " ++ nodeName source ++ " -> " ++ nodeName reference.target ++
    " [label=<" ++ escape reference.path.text ++ ">]\n"

/-- What went wrong with a node, if anything did. -/
def errors? (node : Node) : Option String :=
  -- What failed while reading the resource is told before what failed while reading its references.
  let failed := match node.failure with
    | some reason => "GetErr()=" ++ reason ++ " "
    | none => ""
  match node.failure, node.references with
  | none, .ok _ => none
  | _, .ok _ => some failed
  | _, .error reason => some (failed ++ "OutRefs()=" ++ reason ++ " ")

/-- The labels shown with a node; what went wrong takes the place of a label of its name. -/
def shownLabels (node : Node) : Labels :=
  match errors? node with
  | some text => node.labels.put "errors" text
  | none => node.labels

/-- The line of a label. -/
def row (label : String × String) : String :=
  "      <tr><td>" ++ escape label.1 ++ "</td><td align=\"left\">" ++ escape label.2 ++
    "</td></tr>\n"

/-- The lines of a box. -/
def box (node : Node) : String :=
  "  " ++ nodeName node.id ++ " [label=<\n" ++
    "    <table border=\"0\">\n" ++
    "      <tr><td colspan=\"2\"><font point-size=\"16\">\\N</font></td></tr>\n" ++
    "      <tr><td colspan=\"2\">---</td></tr>\n" ++
    String.join ((shownLabels node).entries.map row) ++
    "    </table>\n" ++
    "  >,color=" ++ color node.operation ++ ",shape=box,style=filled]\n"

/-- The edges of a node in their order, and then its box. -/
def nodeText (node : Node) : String :=
  String.join ((Graph.referencesOf node).map (edge node.id)) ++ box node

/-- The document of nodes in the given order. -/
def document (nodes : List Node) : String :=
  "digraph G \x7b\n" ++ "  rankdir=TB\n" ++ String.join (nodes.map nodeText) ++ "\x7d\n"

/-- The document of a graph. -/
def ofGraph (graph : Graph) : String :=
  document graph.nodes

end Triversion.Dot
