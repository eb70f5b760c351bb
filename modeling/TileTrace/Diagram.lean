/-!
# Diagrams

A diagram is a picture of a record: drawn nodes, edges between them, and the
drawn nodes that are placed on one line. Drawn nodes are referred to by number.
-/

namespace TileTrace

/-- The shapes of drawn nodes. -/
inductive Shape where
  | box
  | diamond
  deriving DecidableEq, Repr, Inhabited

/-- A drawn node. -/
structure DrawnNode where
  id : Int
  label : String
  shape : Shape
  /-- The number of the node that was drawn. -/
  source : Int
  deriving DecidableEq, Repr, Inhabited

/-- An edge. Back edges of loops do not constrain the layout. -/
structure DrawnEdge where
  start : Int
  target : Int
  label : Option String
  constraint : Bool
  deriving DecidableEq, Repr, Inhabited

/-- A diagram. -/
structure Diagram where
  nodes : List DrawnNode := []
  edges : List DrawnEdge := []
  /-- The drawn nodes on one line, in the order of drawing. -/
  sameRank : List Int := []
  deriving DecidableEq, Repr, Inhabited

namespace Diagram

/-- The first node drawn for the given source. -/
def findBySource (diagram : Diagram) (source : Int) : Option DrawnNode :=
  diagram.nodes.find? (·.source = source)

/-- The edges from one drawn node to another, in the order of drawing. -/
def edgesBetween (diagram : Diagram) (start target : Int) : List DrawnEdge :=
  diagram.edges.filter fun edge => edge.start = start && edge.target = target

end Diagram

end TileTrace
