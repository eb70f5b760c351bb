import TileTrace.Step

/-!
# Nodes of a record

A record holds three kinds of nodes. A kernel is one launch. A loop is either
the grid loop of a kernel, which stands for the blocks of the launch, or a
nested loop over tiles. A step is one invocation of a step definition. A node
has the number under which it was registered, a tag that locates it in the
iteration space, and the number of its parent: the enclosing loop, or the kernel
for a grid loop.
-/

namespace TileTrace

/-- The number under which a node was registered. -/
abbrev NodeId := Nat

/-- The two kinds of loops. -/
inductive LoopKind where
  | grid
  | nested
  deriving DecidableEq, Repr, Inhabited

/-- What a node is, and what only nodes of its kind have. -/
inductive Payload where
  | kernel (name : String) (inputs outputs : List Handle)
  | loop (kind : LoopKind) (induction : Value) (extent : Option Value)
  | step (origin : StepDefinition) (definitionId : StepId) (inputs outputs : List Handle)
  deriving DecidableEq

/-- A node. -/
structure Node where
  id : NodeId
  tag : Coordinate
  parent : Option NodeId
  /-- Whether diagrams show the node. Its children are shown either way. -/
  visualize : Bool := true
  payload : Payload
  deriving DecidableEq

namespace Payload

/-- The word for the kind of a node. -/
def kindName : Payload → String
  | kernel _ _ _ => "Kernel"
  | loop _ _ _ => "Loop"
  | step _ _ _ _ => "Step"

/-- What the text of a node says before its tag. -/
def text : Payload → String
  | kernel name _ _ => "Kernel " ++ name
  | loop kind induction extent =>
      (match kind with | .grid => "GridLoop " | .nested => "Loop ") ++ induction.text ++
        (match extent with | some extent => " extent=" ++ extent.text | none => "")
  | step origin _ _ _ => "Step " ++ origin.name

end Payload

namespace Node

/-- Whether the node is a kernel. -/
def isKernel (n : Node) : Bool :=
  match n.payload with
  | .kernel _ _ _ => true
  | _ => false

/-- Whether the node is a loop. -/
def isLoop (n : Node) : Bool :=
  match n.payload with
  | .loop _ _ _ => true
  | _ => false

/-- Whether the node is a step. -/
def isStep (n : Node) : Bool :=
  match n.payload with
  | .step _ _ _ _ => true
  | _ => false

/-- Whether the node is the grid loop of a kernel. -/
def isGridLoop (n : Node) : Bool :=
  match n.payload with
  | .loop .grid _ _ => true
  | _ => false

/-- Whether the node is an invocation of the given step definition. -/
def isStepOf (d : StepDefinition) (n : Node) : Bool :=
  match n.payload with
  | .step origin _ _ _ => origin = d
  | _ => false

/-- The node in one line. -/
def text (n : Node) : String :=
  n.payload.text ++ " [" ++ n.tag.text ++ "] id=" ++ Decimal.ofNat n.id

/-- What the node produces: the induction symbol of a loop, or the declared outputs of a step. -/
def target (n : Node) : Option String :=
  match n.payload with
  | .loop _ induction _ => some induction.text
  | .step _ _ _ outputs => if outputs.isEmpty then none else some (String.intercalate ", " outputs)
  | .kernel _ _ _ => none

/-- The name of a kernel or of the definition of a step. -/
def name (n : Node) : Except Error String :=
  match n.payload with
  | .kernel name _ _ => .ok name
  | .step origin _ _ _ => .ok origin.name
  | .loop _ _ _ => .error .loopHasNoName

/-- The name of a kernel. -/
def kernelName (n : Node) : Except Error String :=
  match n.payload with
  | .kernel name _ _ => .ok name
  | payload => .error (.nodeKind "Kernel" payload.kindName)

/-- The induction symbol of a loop. -/
def induction (n : Node) : Except Error Value :=
  match n.payload with
  | .loop _ induction _ => .ok induction
  | payload => .error (.nodeKind "Loop" payload.kindName)

/-- The number of the definition of a step. -/
def definitionId (n : Node) : Except Error StepId :=
  match n.payload with
  | .step _ definitionId _ _ => .ok definitionId
  | payload => .error (.nodeKind "Step" payload.kindName)

/-- The node with one more kernel input. -/
def addInput (handle : Handle) (n : Node) : Node :=
  match n.payload with
  | .kernel name inputs outputs => { n with payload := .kernel name (inputs ++ [handle]) outputs }
  | _ => n

/-- The node with one more kernel output. -/
def addOutput (handle : Handle) (n : Node) : Node :=
  match n.payload with
  | .kernel name inputs outputs => { n with payload := .kernel name inputs (outputs ++ [handle]) }
  | _ => n

end Node

end TileTrace
