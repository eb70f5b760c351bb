import TileTrace.Registry
import TileTrace.SymbolSource
import TileTrace.Tree

/-!
# Contexts

A context records kernels, loops, and steps. Its nodes are kept in the order of
registration, and a node is never removed or moved. While a kernel is open, one
of its loops is the current scope, which new loops and steps are put into. A
context belongs to the first thread that changes it.
-/

namespace TileTrace

/-- The number of a context. -/
abbrev ContextId := Nat

/-- The number of a thread. -/
abbrev ThreadId := Nat

/-- The open kernel and the innermost open loop. -/
structure Scope where
  kernel : NodeId
  loop : NodeId
  deriving DecidableEq, Repr, Inhabited

/-- Whether a kernel is open, and whether its grid loop is the current scope. -/
inductive ScopeState where
  | idle
  | inKernel
  | inNestedLoop
  deriving DecidableEq, Repr, Inhabited

/-- A context. -/
structure Context where
  id : ContextId
  nodes : Array Node := #[]
  scope : Option Scope := none
  /-- The source of the induction symbols of grid loops. -/
  tiles : SymbolSource := ⟨"tile", 0⟩
  /-- The source of the induction symbols of nested loops. -/
  coords : SymbolSource := ⟨"coord", 0⟩
  registry : Registry := {}
  owner : Option ThreadId := none
  deriving DecidableEq

/-- A node of a context, referred to from anywhere. -/
structure NodeRef where
  home : ContextId
  node : Node
  deriving DecidableEq

namespace Context

/-! ## Looking into a context -/

/-- The number of nodes. -/
def size (c : Context) : Nat :=
  c.nodes.size

/-- The node with the given number. -/
def node? (c : Context) (id : NodeId) : Option Node :=
  c.nodes[id]?

/-- The node with the given number, or the error that there is none. -/
def node (c : Context) (id : Int) : Except Error Node :=
  match id with
  | .ofNat position =>
      match c.node? position with
      | some n => .ok n
      | none => .error (.nodeIndex id c.size)
  | .negSucc _ => .error (.nodeIndex id c.size)

/-- The numbers of the children of a node, in order. -/
def children (c : Context) (id : NodeId) : List NodeId :=
  (c.nodes.toList.filter (·.parent = some id)).map (·.id)

/-- The numbers of the kernels, in the order of their launches. -/
def kernels (c : Context) : List NodeId :=
  (c.nodes.toList.filter (·.isKernel)).map (·.id)

/-- The grid loop of a kernel is registered right after the kernel. -/
def gridOf (kernel : NodeId) : NodeId :=
  kernel + 1

/-- The chain of parents that starts with the given one, found among earlier nodes. The latest of
these comes first. -/
def parentChain : List Node → Option NodeId → List NodeId
  | [], _ => []
  | _, none => []
  | n :: earlier, some parent =>
      if n.id = parent then parent :: parentChain earlier n.parent
      else parentChain earlier (some parent)

/-- The numbers of the nodes above a node, the parent first and the kernel last. -/
def ancestors (c : Context) (n : Node) : List NodeId :=
  parentChain (c.nodes.toList.take n.id).reverse n.parent

/-- The number of nodes above a node. -/
def depthOf (c : Context) (n : Node) : Nat :=
  (c.ancestors n).length

/-- The number of the topmost node above a node, or of the node itself. -/
def rootOf (c : Context) (n : Node) : NodeId :=
  (c.ancestors n).getLastD n.id

/-- The tree below a node, which is the first tree of the nodes from that node on. -/
def tree? (c : Context) (id : NodeId) : Option Tree :=
  (Tree.forest (c.nodes.toList.drop id)).head?

/-- The trees of all kernels. -/
def forest (c : Context) : List Tree :=
  Tree.forest c.nodes.toList

/-- The context as text: the lines of all kernels. -/
def text (c : Context) : String :=
  String.join (c.forest.flatMap fun tree => tree.lines.map (· ++ "\n"))

/-- The loop that is the current scope. -/
def currentLoop? (c : Context) : Option Node := do
  c.node? (← c.scope).loop

/-- The name of a kernel. -/
def kernelName (c : Context) (kernel : NodeId) : String :=
  match c.node? kernel with
  | some ⟨_, _, _, _, .kernel name _ _⟩ => name
  | _ => ""

/-- The tag of the current scope. -/
def currentTag (c : Context) : Except Error Coordinate :=
  match c.currentLoop? with
  | some loop => .ok loop.tag
  | none => .error .noOpenScope

/-- Whether a kernel is open, and whether its grid loop is the current scope. -/
def state (c : Context) : ScopeState :=
  match c.currentLoop? with
  | none => .idle
  | some loop => if loop.isGridLoop then .inKernel else .inNestedLoop

/-- The number of open loops below the grid loop. -/
def loopDepth (c : Context) : Nat :=
  match c.currentLoop? with
  | none => 0
  | some loop =>
      ((loop.id :: c.ancestors loop).takeWhile fun id =>
        match c.node? id with
        | some n => !n.isGridLoop
        | none => false).length

/-- The number of a step definition, if it was recorded. -/
def stepId? (c : Context) (d : StepDefinition) : Option StepId :=
  c.registry.id? d

/-- The step definition with the given number. -/
def stepDefinition? (c : Context) (id : StepId) : Option StepDefinition :=
  c.registry.definition? id

end Context

end TileTrace
