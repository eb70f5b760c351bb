import TileTrace.Guard

/-!
# Launches, loops, and steps

A traced program is written with `launchKernel`, `tileLoop`, and `invokeStep`.
Without recording, a launch and a loop run their body for every index below
their extent, which has to be a word, and a step runs its function. With
recording, a body runs once with the induction symbol of a new scope, which is
closed in the context where it was opened, and a step is recorded before its
function runs. The bodies may be computations of any monad into which `Trace`
can be lifted.
-/

namespace TileTrace

/-- A kernel launch. -/
structure Launch where
  name : String
  /-- The number of blocks. -/
  grid : Value
  /-- The tag of the kernel. The block index fills its first slot. -/
  template : Coordinate := .unbound
  inputs : List Handle := []
  outputs : List Handle := []

namespace FrontEnd

variable {m : Type → Type} [Monad m] [MonadLiftT Trace m]

/-- Run a body for a number of consecutive indices. -/
def countFrom (body : Value → m Unit) (start : Nat) : Nat → m Unit
  | 0 => pure ()
  | count + 1 => do
      body (.concrete (Int64.ofNat start))
      countFrom body (start + 1) count

/-- Run a body for every index below an extent. -/
def runConcrete (what : String) (extent : Value) (body : Value → m Unit) : m Unit :=
  match extent with
  | .concrete word => countFrom body 0 word.toInt.toNat
  | _ => liftM (throw (.extentNotConcrete what extent.text) : Trace Unit)

/-- The context that is recorded into, if any. -/
def target? : Trace (Option ContextId) := do
  return (← get).target?

/-- Open the kernel of a launch with its inputs and outputs. -/
def openLaunch (id : ContextId) (launch : Launch) : Trace Value := do
  let (_, grid) ← Trace.openKernel id launch.name launch.template (some launch.grid)
  launch.inputs.forM (Trace.addKernelInput id)
  launch.outputs.forM (Trace.addKernelOutput id)
  Trace.ofExcept grid.induction

/-- Run a body for every block of a launch. -/
def launchKernel (launch : Launch) (body : Value → m Unit) : m Unit := do
  match ← liftM target? with
  | none => runConcrete "grid size" launch.grid body
  | some id => do
      let block ← liftM (openLaunch id launch)
      body block
      let _ ← liftM (Trace.closeKernel id)

/-- Run a body for every tile index below an extent. -/
def tileLoop (extent : Value) (body : Value → m Unit) : m Unit := do
  match ← liftM target? with
  | none => runConcrete "loop extent" extent body
  | some id => do
      let loop ← liftM (Trace.openLoop id (some extent))
      let index ← liftM (Trace.ofExcept loop.induction)
      body index
      liftM (Trace.closeLoop id)

/-- What comes before the function of a step: the arguments are counted, and the step is recorded
if there is a context to record it into. -/
def beforeStep (d : StepDefinition) (args : List Argument) : Trace Unit := do
  Trace.ofExcept (d.checkArity args)
  match ← target? with
  | none => pure ()
  | some id => do
      let tag ← Trace.ofExcept (d.resolveTag args)
      let _ ← Trace.recordStep id d tag d.requestedId (StepDefinition.inputsOf args)

/-- Invoke a step: record it if need be, and run its function. -/
def invokeStep (apply : FunctionId → List Argument → m Unit) (d : StepDefinition)
    (args : List Argument) : m Unit := do
  liftM (beforeStep d args)
  apply d.function args

end FrontEnd

end TileTrace
