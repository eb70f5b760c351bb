import TileTrace.Session.Log

/-!
# The state of a session

A session keeps a world together with the names that its script has chosen. A
computation of type `Run α` works on a session and keeps what was changed when it
fails.
-/

namespace TileTrace

/-- The state of a session. -/
structure Session where
  world : World
  /-- The living contexts by the numbers of the script. -/
  numbers : List (Session.ContextNumber × ContextId) := []
  /-- The step definitions by key. -/
  definitions : List (String × StepDefinition) := []
  /-- The number of declarations so far. -/
  declared : Nat := 0
  /-- The bodies of step functions. -/
  functions : List (FunctionId × Session.Script) := []
  /-- The living guards by label, the latest first. -/
  guards : List (String × Guard) := []
  /-- The number of buffers for print-outs so far. -/
  buffers : Nat := 1
  log : Array Session.Entry := #[]

namespace Session

/-- A session before its first action. Print-outs go to the first buffer. -/
def start (disk : Disk) : Session :=
  { world := { thread := { stream := .buffer 0 }, disk := disk } }

/-- A computation on a session that may fail. -/
abbrev Run := ExceptT Error (StateM Session)

/-- A computation on the world works on the world of a session. -/
instance (priority := low) : MonadLift Trace Run where
  monadLift action := fun session =>
    let (result, world) := action.runOn session.world
    (result, { session with world := world })

/-- The names in force while an action runs: variables, and the arguments of the running step
function. -/
structure Frame where
  bindings : Value.Bindings := []
  args : List Argument := []

/-- The frame with one more variable. -/
def Frame.bind (frame : Frame) (name : String) (value : Value) : Frame :=
  { frame with bindings := (name, value) :: frame.bindings }

/-- The coordinate that was passed for a position. -/
def Frame.coordinate? (frame : Frame) (position : Nat) : Option Coordinate :=
  frame.args[position]?.bind Argument.coordinate?

/-- The living context with the given number. -/
def contextId (number : ContextNumber) : Run ContextId := do
  match (← get).numbers.lookup number with
  | some id => return id
  | none => throw (.unknownName "context")

/-- The step definition with the given key. -/
def definition (key : String) : Run StepDefinition := do
  match (← get).definitions.lookup key with
  | some d => return d
  | none => throw (.unknownName key)

/-- A value as a script writes it. -/
def value (frame : Frame) (term : Value.Term) : Run Value :=
  liftM (Trace.ofExcept (term.build frame.bindings))

/-- An optional value as a script writes it. -/
def optionalValue (frame : Frame) : Option Value.Term → Run (Option Value)
  | none => pure none
  | some term => return some (← value frame term)

/-- A coordinate as a script writes it. -/
def coordinate (frame : Frame) (term : Coordinate.Term) : Run Coordinate :=
  liftM (Trace.ofExcept (term.build frame.bindings frame.coordinate?))

/-- The argument of a term. -/
def ArgumentTerm.build (frame : Frame) : ArgumentTerm → Except Error Argument
  | .handle name => .ok (.handle name)
  | .coordinate term => return .coordinate (← term.build frame.bindings frame.coordinate?)
  | .pass position =>
      match frame.args[position]? with
      | some arg => .ok arg
      | none => .error (.unknownName "argument")

/-- An argument as a script writes it. -/
def argument (frame : Frame) (term : ArgumentTerm) : Run Argument :=
  liftM (Trace.ofExcept (term.build frame))

/-- The launch of a term. -/
def LaunchTerm.build (frame : Frame) (term : LaunchTerm) : Except Error Launch := do
  let grid ← term.grid.build frame.bindings
  let template ← term.template.build frame.bindings frame.coordinate?
  return ⟨term.name, grid, template, term.inputs, term.outputs⟩

/-- A kernel launch as a script writes it. -/
def launch (frame : Frame) (term : LaunchTerm) : Run Launch :=
  liftM (Trace.ofExcept (term.build frame))

/-- A node as a script refers to it. -/
def nodeRef : NodeTerm → Run (Option NodeRef)
  | .null => pure none
  | .node number id => do
      let home ← contextId number
      let c ← liftM (Trace.context home)
      let n ← liftM (Trace.ofExcept (c.node id))
      return some ⟨home, n⟩

/-! ## Writing the log -/

/-- The summary of a context. -/
def summary (number : ContextNumber) (c : Context) : ContextSummary :=
  ⟨number, c.state, c.loopDepth, c.scope, c.size⟩

/-- A snapshot of a session. -/
def snapshot (session : Session) : Snapshot :=
  let world := session.world
  let numbers := session.numbers.mergeSort fun left right => left.1 ≤ right.1
  { current := world.thread.current.bind fun id => (numbers.find? (·.2 = id)).map (·.1)
    depth := world.thread.active.length
    mode := world.thread.mode
    recording := world.isRecording
    contexts := numbers.filterMap fun (number, id) => (world.context? id).map (summary number) }

/-- The session after an action was finished. What was printed and written is handed over to the
log. -/
def logged (session : Session) (label : String) (result : Except Error Answer) : Session :=
  let world := session.world
  let entry := Entry.done label result session.snapshot
    (byBuffer session.buffers world.printed.toList) world.disk.listing
  { session with
    log := session.log.push entry
    world := { world with printed := #[], disk := { world.disk with files := [] } } }

end Session

end TileTrace
