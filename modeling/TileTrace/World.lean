import TileTrace.Context.Build
import TileTrace.Diagram.Dot
import TileTrace.Diagram.Flatten
import TileTrace.Disk
import TileTrace.Options.Text
import TileTrace.Thread

/-!
# The state of tracing

A world holds all contexts, the running thread, the active options, and what was
printed and written so far. A computation of type `Trace α` works on the world.
When it fails, it keeps what was changed before the failure.
-/

namespace TileTrace

/-- The state of tracing. -/
structure World where
  /-- The contexts by number. A destroyed context leaves a gap. -/
  contexts : Array (Option Context) := #[]
  thread : Thread := {}
  dump : Options DumpOption := .none
  disable : Options DisableOption := .none
  environment : Environment := []
  /-- What was printed to which buffer, in order. -/
  printed : Array (Nat × String) := #[]
  disk : Disk
  deriving Inhabited

namespace World

/-- The context with the given number. -/
def context? (w : World) (id : ContextId) : Option Context :=
  (w.contexts[id]?).join

/-- Whether launches, loops, and steps are recorded: the thread is in recording mode, a context is
active, and recording is not disabled. -/
def isRecording (w : World) : Bool :=
  w.thread.mode = .recording && w.thread.current.isSome && !w.disable.has .recording

/-- The context that is recorded into, if any. -/
def target? (w : World) : Option ContextId :=
  if w.isRecording then w.thread.current else none

/-- The world after a text was printed. -/
def print (w : World) (text : String) : World :=
  match w.thread.stream with
  | .console => w
  | .buffer number => { w with printed := w.printed.push (number, text) }

end World

/-- A computation on the world that may fail. -/
abbrev Trace := ExceptT Error (StateM World)

namespace Trace

/-- The result and the world after a computation. -/
def runOn {α : Type} (action : Trace α) (w : World) : Except Error α × World :=
  (ExceptT.run action).run w

/-- A result that is known. -/
def ofExcept {α : Type} (result : Except Error α) : Trace α :=
  match result with
  | .ok a => pure a
  | .error e => throw e

/-- Change the running thread. -/
def modifyThread (change : Thread → Thread) : Trace Unit :=
  modify fun w => { w with thread := change w.thread }

/-! ## Contexts -/

/-- Create a context. -/
def createContext : Trace ContextId := do
  let id := (← get).contexts.size
  modify fun w => { w with contexts := w.contexts.push (some { id := id }) }
  return id

/-- Destroy a context. The running thread forgets the innermost entry of it. -/
def destroyContext (id : ContextId) : Trace Unit := do
  modifyThread (·.forget id)
  modify fun w => { w with contexts := w.contexts.setIfInBounds id none }

/-- The context with the given number. -/
def context (id : ContextId) : Trace Context := do
  match (← get).context? id with
  | some c => return c
  | none => throw (.unknownName "context")

/-- Carry out an operation of the running thread on a context. -/
def onContext {α : Type} (id : ContextId) (operation : Context → ThreadId → Context.Attempt α) :
    Trace α := do
  let c ← context id
  let (result, changed) := operation c (← get).thread.id
  modify fun w => { w with contexts := w.contexts.setIfInBounds id (some changed) }
  ofExcept result

/-- Make a context the innermost active one. -/
def enter (id : ContextId) : Trace Unit :=
  modifyThread (·.enter id)

/-- Leave a context, which has to be the innermost active one. -/
def exit (id : ContextId) : Trace Unit := do
  let thread ← ofExcept ((← get).thread.exit id)
  modifyThread fun _ => thread

/-! ## Print-outs -/

/-- Print a text to the stream of the running thread. -/
def print (text : String) : Trace Unit :=
  modify (·.print text)

/-- Write the diagram of a tree to a file. -/
def writeDiagram (tree : Tree) (path : String) : Trace Unit := do
  match (← get).disk.write path (Diagram.flatten tree).dot with
  | some disk => modify fun w => { w with disk := disk }
  | none => throw (.diagramFile path)

/-- Log an event of a scope or a step, if asked for. -/
def logScope (event : String) (n : Node) : Trace Unit := do
  if (← get).dump.has .scopeTrace then
    print ("[scope] " ++ event ++ " " ++ n.text ++ "\n")

/-- Print a closed kernel, as a tree and as a diagram, if asked for. -/
def dumpClosed (kernel : String) (tree : Tree) : Trace Unit := do
  if (← get).dump.has .kernelGraph then
    print (String.join (tree.lines.map (· ++ "\n")))
  match (← get).dump.enabled .kernelDiagram with
  | none => pure ()
  | some [] => print (Diagram.flatten tree).dot
  | some (directory :: _) => writeDiagram tree (directory ++ "/" ++ kernel ++ ".dot")

/-! ## Building records -/

/-- Register a node, which is always refused. -/
def register (id : ContextId) (node : Option NodeRef) : Trace NodeId :=
  onContext id fun c thread => c.register thread node

/-- Open a kernel. -/
def openKernel (id : ContextId) (name : String) (template : Coordinate) (extent : Option Value) :
    Trace (Node × Node) := do
  let (kernel, grid) ← onContext id fun c thread => c.openKernel thread name template extent
  logScope "open" kernel
  logScope "open" grid
  return (kernel, grid)

/-- Open a loop. -/
def openLoop (id : ContextId) (extent : Option Value) : Trace Node := do
  let loop ← onContext id fun c thread => c.openLoop thread extent
  logScope "open" loop
  return loop

/-- Close the innermost loop. -/
def closeLoop (id : ContextId) : Trace Unit := do
  let loop ← onContext id fun c thread => c.closeLoop thread
  logScope "close" loop

/-- Record a step. -/
def recordStep (id : ContextId) (origin : StepDefinition) (tag : Coordinate)
    (requested : Option StepId) (inputs : List Handle) : Trace Node := do
  let step ← onContext id fun c thread => c.recordStep thread origin tag requested inputs
  logScope "record" step
  return step

/-- Close the open kernel, and print it if asked for. The kernel is closed even when its diagram
cannot be written. -/
def closeKernel (id : ContextId) : Trace Node := do
  let (kernel, grid) ← onContext id fun c thread => c.closeKernel thread
  logScope "close" grid
  logScope "close" kernel
  let c ← context id
  match c.tree? kernel.id with
  | some tree => dumpClosed (c.kernelName kernel.id) tree
  | none => pure ()
  return kernel

/-- Add an input to the open kernel. -/
def addKernelInput (id : ContextId) (handle : Handle) : Trace Unit :=
  onContext id fun c thread => c.addKernelInput thread handle

/-- Add an output to the open kernel. -/
def addKernelOutput (id : ContextId) (handle : Handle) : Trace Unit :=
  onContext id fun c thread => c.addKernelOutput thread handle

/-- Show or hide a node of the open kernel. -/
def setVisualize (id : ContextId) (node : Option NodeRef) (visualize : Bool) : Trace Unit :=
  onContext id fun c thread => c.setVisualize thread node visualize

end Trace

end TileTrace
