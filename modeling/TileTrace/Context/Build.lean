import TileTrace.Context

/-!
# Building a record

The operations of this module change a context. Each comes from a thread, and a
context takes changes only from the thread that came first. An operation that is
refused changes nothing but the ownership: the operations themselves yield a new
context only when they succeed, and `claimed` keeps the old one otherwise.
-/

namespace TileTrace.Context

/-- What an operation answers, and the context after it. -/
abbrev Attempt (α : Type) := Except Error α × Context

/-- Carry out an operation for a thread, which becomes the owner of the context if it has none. -/
def claimed {α : Type} (c : Context) (thread : ThreadId)
    (operation : Context → Except Error (α × Context)) : Attempt α :=
  let claim := { c with owner := some thread }
  match c.owner with
  | some owner => if owner = thread then run claim else (.error .foreignThread, c)
  | none => run claim
where
  /-- Keep the context when the operation is refused. -/
  run (claim : Context) : Attempt α :=
    match operation claim with
    | .ok (answer, changed) => (.ok answer, changed)
    | .error e => (.error e, claim)

/-- The context with a new node, which gets the next number. -/
def push (c : Context) (tag : Coordinate) (parent : Option NodeId) (payload : Payload) :
    Node × Context :=
  let n : Node := ⟨c.size, tag, parent, true, payload⟩
  (n, { c with nodes := c.nodes.push n })

/-- Register a node. Every node is registered when it is made, so this is always refused. -/
def register (c : Context) (thread : ThreadId) (node : Option NodeRef) : Attempt NodeId :=
  match node with
  | none => (.error .nullRegistered, c)
  | some ref => c.claimed thread fun _ => .error (.alreadyRegistered ref.node.text)

/-- Open a kernel and its grid loop, which becomes the current scope. The tag of the grid loop is
the template with a fresh tile symbol in its first slot. -/
def openKernel (c : Context) (thread : ThreadId) (name : String) (template : Coordinate)
    (extent : Option Value) : Attempt (Node × Node) :=
  c.claimed thread fun c =>
    match c.scope with
    | some scope => .error (.kernelInsideKernel (c.kernelName scope.kernel) name)
    | none =>
        let (induction, tiles) := c.tiles.next
        let (kernel, c) := c.push template none (.kernel name [] [])
        let (grid, c) := c.push (template.bind (.bound induction)) (some kernel.id)
          (.loop .grid induction extent)
        .ok ((kernel, grid), { c with tiles := tiles, scope := some ⟨kernel.id, grid.id⟩ })

/-- Put a new node into the current scope. A node that is not registered yet shows the number
minus one. -/
def append (c : Context) (tag : Coordinate) (payload : Payload) :
    Except Error (Node × Context) :=
  match c.currentLoop? with
  | some scope => .ok (c.push tag (some scope.id) payload)
  | none => .error (.noScopeToAppend (payload.text ++ " [" ++ tag.text ++ "] id=-1"))

/-- Open a loop in the current scope. It becomes the current scope, and its tag is that of the
scope around it with a fresh coordinate symbol in its first slot. -/
def openLoop (c : Context) (thread : ThreadId) (extent : Option Value) : Attempt Node :=
  c.claimed thread fun c =>
    match c.scope with
    | none => .error .loopOutsideKernel
    | some scope => do
        let (induction, coords) := c.coords.next
        let tag ← c.currentTag
        let (loop, c) ← c.append (tag.bind (.bound induction)) (.loop .nested induction extent)
        return (loop, { c with coords := coords, scope := some ⟨scope.kernel, loop.id⟩ })

/-- Close the current scope and return to the loop around it. The grid loop is closed together
with its kernel and not like this. -/
def closeLoop (c : Context) (thread : ThreadId) : Attempt Node :=
  c.claimed thread fun c =>
    match c.scope, c.currentLoop? with
    | some scope, some loop =>
        if loop.isGridLoop then .error (.closeLoopOnGrid (c.kernelName scope.kernel))
        else match loop.parent with
          | none => .error (.loopWithoutScope loop.text)
          | some outer => .ok (loop, { c with scope := some ⟨scope.kernel, outer⟩ })
    | _, _ => .error .noLoopToClose

/-- Record an invocation of a step in the current scope. -/
def recordStep (c : Context) (thread : ThreadId) (origin : StepDefinition) (tag : Coordinate)
    (requested : Option StepId) (inputs : List Handle) : Attempt Node :=
  c.claimed thread fun c =>
    match c.scope with
    | none => .error (.stepOutsideKernel origin.name)
    | some _ => do
        let (definitionId, registry) ← c.registry.bind origin requested
        let (step, c) ← c.append tag (.step origin definitionId inputs origin.outputs)
        return (step, { c with registry := registry })

/-- Close the open kernel and its grid loop, which has to be the current scope. -/
def closeKernel (c : Context) (thread : ThreadId) : Attempt (Node × Node) :=
  c.claimed thread fun c =>
    match c.scope, c.currentLoop? with
    | some scope, some loop =>
        match c.node? scope.kernel with
        | none => .error .noKernelToClose
        | some kernel =>
            if scope.loop = gridOf scope.kernel then
              .ok ((kernel, loop), { c with scope := none })
            else .error (.closeKernelInLoop (c.kernelName scope.kernel) loop.text)
    | _, _ => .error .noKernelToClose

/-- The context with one of its nodes changed. -/
def modifyNode (c : Context) (id : NodeId) (change : Node → Node) : Context :=
  { c with nodes := c.nodes.modify id change }

/-- Add an input to the open kernel. -/
def addKernelInput (c : Context) (thread : ThreadId) (handle : Handle) : Attempt Unit :=
  c.claimed thread fun c =>
    match c.scope with
    | some scope => .ok ((), c.modifyNode scope.kernel (Node.addInput handle))
    | none => .error (.noKernelForInput handle)

/-- Add an output to the open kernel. -/
def addKernelOutput (c : Context) (thread : ThreadId) (handle : Handle) : Attempt Unit :=
  c.claimed thread fun c =>
    match c.scope with
    | some scope => .ok ((), c.modifyNode scope.kernel (Node.addOutput handle))
    | none => .error (.noKernelForOutput handle)

/-- Whether a reference is to a node of this context that belongs to the open kernel. -/
def inOpenKernel (c : Context) (ref : NodeRef) : Bool :=
  match c.scope, c.node? ref.node.id with
  | some scope, some n => ref.home = c.id && c.rootOf n = scope.kernel
  | _, _ => false

/-- Show or hide a node of the open kernel in diagrams. -/
def setVisualize (c : Context) (thread : ThreadId) (node : Option NodeRef) (visualize : Bool) :
    Attempt Unit :=
  match node with
  | none => (.error .nullModified, c)
  | some ref => c.claimed thread fun c =>
      if c.inOpenKernel ref then
        .ok ((), c.modifyNode ref.node.id fun n => { n with visualize := visualize })
      else .error (.notInOpenKernel ref.node.text)

end TileTrace.Context
