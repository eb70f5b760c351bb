import TileTrace.Diagram
import TileTrace.Tree

/-!
# Flattening trees into diagrams

The body of a loop is drawn as a chain: each drawn node is connected to the one
drawn before it, and a nested loop is spliced into the chain of the loop around
it. An edge shows what was produced last: the induction symbol of a loop for the
first node of its body, and afterwards the outputs of the latest step. A loop
with a drawn body gets an edge back from the last node of the body. Hidden nodes
are left out, and their children are drawn in their place.
-/

namespace TileTrace

/-- The label of the drawing of a node. -/
def Node.label (n : Node) : String :=
  (match n.payload with
    | .kernel name _ _ => "kernel " ++ name
    | .loop .grid induction _ => "grid " ++ induction.text
    | .loop .nested induction _ => "for " ++ induction.text
    | .step origin _ _ _ => origin.name) ++ "\ntag=" ++ n.tag.exprText

namespace Diagram

/-- What the visit of a node leaves for the nodes after it: the drawn node to connect to, and the
label of the next edge if the visit changed it. -/
structure Visit where
  last : Option Nat
  produced : Option (Option String)
  deriving Inhabited

/-- What is known in the middle of the body of a loop. -/
structure ChainState where
  /-- The drawn node to connect to. -/
  previous : Option Nat
  /-- The node drawn last in the body. -/
  lastDrawn : Option Nat
  /-- The label of the next edge. -/
  label : Option String
  /-- The label of the next edge, if the body changed it. -/
  produced : Option (Option String)
  deriving Inhabited

/-- Draw a node and connect it to the node before it. -/
def draw (diagram : Diagram) (n : Node) (previous : Option Nat) (label : Option String) :
    Diagram :=
  let id := diagram.nodes.length
  { nodes := diagram.nodes ++
      [⟨id, n.label, if n.isLoop then .diamond else .box, n.id⟩]
    edges := diagram.edges ++
      (match previous with | some previous => [⟨previous, id, label, true⟩] | none => [])
    sameRank := diagram.sameRank ++ [(id : Int)] }

/-- Carry on with a chain after the visit of one of its nodes. When nothing is drawn yet, and the
visit drew nothing, the chain stays as it is. A node that is no loop sets the label of the next
edge, also when it is hidden. A loop sets it only if its body did. -/
def ChainState.after (state : ChainState) (child : Node) (drew : Bool) (visit : Visit) :
    ChainState :=
  if !drew && state.previous.isNone then state
  else
    let state := if drew then { state with previous := visit.last, lastDrawn := visit.last }
      else state
    match if child.isLoop then visit.produced else some child.target with
    | some label => { state with label := label, produced := some label }
    | none => state

/-- The edge from the last drawn node of a body back to its loop. -/
def closeLoop (diagram : Diagram) (loop last : Option Nat) : Diagram :=
  match loop, last with
  | some loop, some last =>
      if last = loop then diagram
      else { diagram with edges := diagram.edges ++ [⟨last, loop, none, false⟩] }
  | _, _ => diagram

mutual
/-- Draw a tree after the given node, with the given label on the edge to it. -/
def visit (diagram : Diagram) (previous : Option Nat) (label : Option String) :
    Tree → Visit × Diagram
  | .node root children =>
      let own := if root.visualize then some diagram.nodes.length else none
      let drawn := if root.visualize then diagram.draw root previous label else diagram
      if root.isLoop then
        let start : ChainState :=
          ⟨own.or previous, none, if root.visualize then root.target else label, none⟩
        let (state, finished) := visitChain drawn start children
        (⟨(state.lastDrawn.or own).or previous, state.produced⟩,
          closeLoop finished own state.lastDrawn)
      else
        (⟨own.or previous, none⟩,
          visitAll drawn (own.or previous) (if root.visualize then none else label) children)

/-- Draw the body of a loop as a chain. -/
def visitChain (diagram : Diagram) (state : ChainState) : List Tree → ChainState × Diagram
  | [] => (state, diagram)
  | child :: children =>
      let (result, drawn) := visit diagram state.previous state.label child
      let drew := drawn.nodes.length != diagram.nodes.length
      visitChain drawn (state.after child.root drew result) children

/-- Draw trees that all come after the same node. -/
def visitAll (diagram : Diagram) (previous : Option Nat) (label : Option String) :
    List Tree → Diagram
  | [] => diagram
  | child :: children => visitAll (visit diagram previous label child).2 previous label children
end

/-- The diagram of a tree. -/
def flatten (tree : Tree) : Diagram :=
  (visit {} none none tree).2

end Diagram

end TileTrace
