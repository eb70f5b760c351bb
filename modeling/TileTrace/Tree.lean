import TileTrace.Node

/-!
# Trees of nodes

A record lists its nodes in the order of registration, and every node names its
parent. `Tree.forest` reads such a list as a forest. It goes through the list
from the end: a node takes those finished trees whose root names it as parent,
and becomes the root of a tree in front of the others. A parent is registered
before its children, so no tree comes too late. The walks over a tree go through
it in depth-first order, a node before its children.
-/

namespace TileTrace

/-- A node with the trees of its children. -/
inductive Tree where
  | node (root : Node) (children : List Tree)

namespace Tree

/-- The node at the root. -/
def root : Tree → Node
  | node root _ => root

/-- The trees of the children. -/
def children : Tree → List Tree
  | node _ children => children

/-- Put a node in front of a forest. It takes the trees that name it as parent. -/
def adopt (n : Node) (forest : List Tree) : List Tree :=
  let (own, others) := forest.partition fun tree => tree.root.parent = some n.id
  node n own :: others

/-- The forest of a list of nodes in the order of registration. -/
def forest (nodes : List Node) : List Tree :=
  nodes.foldr adopt []

mutual
/-- The nodes of a tree in depth-first order. -/
def toList : Tree → List Node
  | node root children => root :: forestToList children

/-- The nodes of a forest in depth-first order. -/
def forestToList : List Tree → List Node
  | [] => []
  | tree :: trees => toList tree ++ forestToList trees
end

/-- A line indented by two spaces per level. -/
def indented (level : Nat) (line : String) : String :=
  String.join (List.replicate level "  ") ++ line

mutual
/-- The texts of the nodes of a tree, one line a node, indented by their depth. -/
def linesAt (level : Nat) : Tree → List String
  | node root children => indented level root.text :: forestLinesAt (level + 1) children

/-- The texts of the nodes of a forest, one line a node, indented by their depth. -/
def forestLinesAt (level : Nat) : List Tree → List String
  | [] => []
  | tree :: trees => linesAt level tree ++ forestLinesAt level trees
end

/-- The tree as indented lines. -/
def lines (tree : Tree) : List String :=
  linesAt 0 tree

/-- The invocations of a step definition in a tree. -/
def stepsOf (tree : Tree) (d : StepDefinition) : List Node :=
  tree.toList.filter (·.isStepOf d)

end Tree

end TileTrace
