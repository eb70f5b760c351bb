import TileTrace.Decimal
import TileTrace.Diagram

/-!
# Diagrams as DOT text

A diagram is written as a directed graph in the DOT language, one statement a
line. Labels are quoted: a quotation mark and a backslash get a backslash in
front, and a line break is written as a backslash and an `n`.
-/

namespace TileTrace.Diagram

/-- How a character is written inside a quoted label. -/
def escaped (c : Char) : List Char :=
  if c = '"' then ['\\', '"']
  else if c = '\\' then ['\\', '\\']
  else if c = '\n' then ['\\', 'n']
  else [c]

/-- A label in quotation marks. -/
def quoted (label : String) : String :=
  "\"" ++ String.ofList (label.toList.flatMap escaped) ++ "\""

/-- How a shape is written. -/
def shapeName : Shape → String
  | .box => "box"
  | .diamond => "diamond"

/-- What comes before the statements of the diagram. -/
def dotHeader : String :=
  "digraph kernel \x7b\n" ++
  "  rankdir=LR;\n" ++
  "  splines=spline;\n" ++
  "  nodesep=0.8;\n" ++
  "  ranksep=0.8;\n" ++
  "  node [shape=box, style=\"rounded,filled\", fillcolor=\"#a5d8ff\"];\n" ++
  "  edge [arrowsize=0.7];\n"

/-- The statement of a drawn node. -/
def nodeLine (node : DrawnNode) : String :=
  "  " ++ Decimal.ofInt node.id ++ " [label=" ++ quoted node.label ++ ", shape=" ++
    shapeName node.shape ++ ", fontsize=10];\n"

/-- The attributes of an edge: its label, and a note when it does not constrain the layout. -/
def edgeAttributes (edge : DrawnEdge) : List String :=
  (match edge.label with | some label => ["label=" ++ quoted label] | none => []) ++
    (if edge.constraint then [] else ["constraint=false"])

/-- The statement of an edge. -/
def edgeLine (edge : DrawnEdge) : String :=
  "  " ++ Decimal.ofInt edge.start ++ " -> " ++ Decimal.ofInt edge.target ++
    (match edgeAttributes edge with
      | [] => ""
      | attributes => " [" ++ String.intercalate ", " attributes ++ "]") ++ ";\n"

/-- The statement that places drawn nodes on one line, if there are any. -/
def rankLine (ids : List Int) : String :=
  if ids.isEmpty then ""
  else "  \x7b rank=same;" ++ String.join (ids.map fun id => " " ++ Decimal.ofInt id ++ ";") ++
    " \x7d\n"

/-- The DOT text of a diagram. -/
def dot (diagram : Diagram) : String :=
  dotHeader ++ String.join (diagram.nodes.map nodeLine) ++
    String.join (diagram.edges.map edgeLine) ++ rankLine diagram.sameRank ++ "\x7d\n"

end TileTrace.Diagram
