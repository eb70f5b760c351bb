import TileTrace.Session.Command

/-!
# Running sessions

An action that succeeds leaves an entry in the log. An error goes up through all
bodies to the innermost action that was started by `attempt` or by the script
itself. That action leaves an entry with the error, and the script goes on with
the next one. Variables and arguments belong to the bodies and are gone with
them, while guards stay.
-/

namespace TileTrace.Session

/-- The deepest nesting of actions and step functions. -/
def maxDepth : Nat := 1000000

/-- Log the end of an action. -/
def logDone (label : String) (result : Except Error Answer) : Run Unit :=
  modify (·.logged label result)

/-- Run the actions of a body in order. The first error ends the body. -/
def runBody (run : Action → Run Answer) (body : Script) : Run Unit :=
  body.forM fun (label, action) => do
    let answer ← run action
    logDone label (.ok answer)

/-- Run actions one after the other. An error is logged, and the next action follows. -/
def runEach (run : Action → Run Answer) (script : Script) : Run Unit :=
  script.forM fun (label, action) => do
    let result ← tryCatch (return .ok (← run action)) fun e => return .error e
    logDone label result

/-- Run a computation on a new thread, and go on with the old one when it has ended. -/
def onNewThread (action : Run Unit) : Run Unit := do
  let parent := (← get).world.thread
  liftM (Trace.modifyThread Thread.child)
  let result ← tryCatch (return .ok (← action)) fun e => return .error e
  liftM (Trace.modifyThread fun _ => parent)
  liftM (Trace.ofExcept result)

/-- Call a step function with its arguments. A function without a body does nothing. -/
def callFunction (run : Frame → Action → Run Answer) (frame : Frame) (function : FunctionId)
    (args : List Argument) : Run Unit := do
  modify fun session => { session with log := session.log.push (.called function args) }
  match (← get).functions.lookup function with
  | some body => runBody (run { frame with args := args }) body
  | none => pure ()

/-- Run an action. The first argument bounds the nesting of actions. -/
def run : Nat → Frame → Action → Run Answer
  | 0, _, _ => throw .tooDeep
  | depth + 1, frame, action =>
      match action with
      | .command command => perform frame command
      | .define function body => do
          modify fun session => { session with
            functions := (function, body) :: session.functions }
          return .nothing
      | .call key args => do
          let d ← definition key
          let args ← args.mapM (argument frame)
          FrontEnd.invokeStep (callFunction (run depth) frame) d args
          return .nothing
      | .launch term block body => do
          let launch ← launch frame term
          FrontEnd.launchKernel launch fun index =>
            runBody (run depth (frame.bind block index)) body
          return .nothing
      | .loop extent index body => do
          let extent ← value frame extent
          FrontEnd.tileLoop extent fun value => runBody (run depth (frame.bind index value)) body
          return .nothing
      | .attempt body => do
          runEach (run depth frame) body
          return .nothing
      | .thread body => do
          onNewThread (runBody (run depth frame) body)
          return .nothing

/-- The log of a script. Files are written to the given disk. -/
def execute (disk : Disk) (script : Script) : Array Entry :=
  let action : Run Unit := runEach (run maxDepth {}) script
  (action.run.run (start disk)).2.log

end TileTrace.Session
