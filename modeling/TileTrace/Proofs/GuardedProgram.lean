import TileTrace.FrontEnd
import TileTrace.Proofs.Atomicity

/-!
# Guarded programs

A traced program may also make guards, and it may look at the state of tracing
before it goes on. `Bodies.run` runs such a program with the front end. Guards
belong to scopes of the program: a guard ends when its scope is left, and so it
does when the scope is left with an error. `GuardScope.runOn_around` says that a
computation inside a guard that keeps its thread leaves the thread outside as it
was.
-/

namespace TileTrace

/-- A guard that a scope of a program makes. -/
inductive GuardScope where
  | context (id : Option ContextId)
  | recording (id : ContextId)
  | mode (entered : Mode)

namespace GuardScope

/-- Make the guard. -/
def enter : GuardScope → Trace Guard
  | context id => Guard.enterContext id
  | recording id => Guard.record id
  | mode entered => Guard.setMode entered

/-- Run a computation while the guard lives. The guard ends also when the computation fails. -/
def around (guard : GuardScope) (x : Trace Unit) : Trace Unit := do
  let living ← guard.enter
  let result ← observing x
  living.leave
  Trace.ofExcept result

/-- The thread while the guard lives. There is no guard without a context. -/
def inside (thread : Thread) : GuardScope → Option Thread
  | context id => id.map thread.enter
  | recording id => some { thread.enter id with mode := .recording }
  | mode entered => some { thread with mode := entered }

end GuardScope

/-- A program with guards. A body may depend on the index of its block or tile, and every program
on the state of tracing. -/
inductive GuardedProgram where
  | done
  | fail (error : Error)
  | look (next : World → GuardedProgram)
  | guarded (guard : GuardScope) (body rest : GuardedProgram)
  | launch (kernel : Launch) (body : Value → GuardedProgram) (rest : GuardedProgram)
  | loop (extent : Value) (body : Value → GuardedProgram) (rest : GuardedProgram)
  | call (step : StepDefinition) (args : List Argument) (rest : GuardedProgram)

/-- Run a program, given how to invoke a step. -/
def GuardedProgram.run (invoke : StepDefinition → List Argument → Trace Unit) :
    GuardedProgram → Trace Unit
  | done => pure ()
  | fail error => throw error
  | look next => do
      let w ← get
      (next w).run invoke
  | guarded guard body rest => do
      guard.around (body.run invoke)
      rest.run invoke
  | launch kernel body rest => do
      FrontEnd.launchKernel kernel fun block => (body block).run invoke
      rest.run invoke
  | loop extent body rest => do
      FrontEnd.tileLoop extent fun index => (body index).run invoke
      rest.run invoke
  | call step args rest => do
      invoke step args
      rest.run invoke

/-- The bodies of step functions. -/
abbrev Bodies := FunctionId → List Argument → GuardedProgram

namespace Bodies

/-- Invoke a step and run its function. The number bounds the nesting of steps. -/
def invoke (bodies : Bodies) : Nat → StepDefinition → List Argument → Trace Unit
  | 0, _, _ => throw .tooDeep
  | depth + 1, step, args =>
      FrontEnd.invokeStep (fun function args => (bodies function args).run (bodies.invoke depth))
        step args

/-- Run a program. -/
def run (bodies : Bodies) (depth : Nat) (p : GuardedProgram) : Trace Unit :=
  p.run (bodies.invoke depth)

end Bodies

/-! ## Guards -/

namespace Trace

variable {w : World}

theorem runOn_observing {α : Type} (x : Trace α) (w : World) :
    (observing x).runOn w = (.ok (x.runOn w).1, (x.runOn w).2) :=
  observing_ok.2 rfl

theorem runOn_ofExcept {α : Type} (result : Except Error α) (w : World) :
    (ofExcept result).runOn w = (result, w) := by
  cases result <;> rfl

end Trace

/-- Forgetting a context that was just made active brings the thread back. -/
theorem Thread.forget_enter (thread : Thread) (id : ContextId) :
    (thread.enter id).forget id = thread := by
  rw [enter, forget, List.erase_cons_head]

/-- The same with the mode that a recording guard sets and brings back. -/
theorem Thread.forget_record (thread : Thread) (id : ContextId) (entered : Mode) :
    { ({ thread.enter id with mode := entered } : Thread).forget id with mode := thread.mode } =
      thread := by
  simp [enter, forget]

namespace GuardScope

variable {guard : GuardScope} {x : Trace Unit} {w w' : World} {thread : Thread}
  {result : Except Error Unit}

/-- A guard that cannot be made fails, and nothing changes. -/
theorem runOn_around_missing (h : guard.inside w.thread = none) :
    (guard.around x).runOn w = (.error .guardWithoutContext, w) := by
  cases guard with
  | context id =>
      obtain rfl := Option.map_eq_none_iff.1 (show id.map w.thread.enter = none from h)
      rfl
  | recording id => cases h
  | mode entered => cases h

/-- A guard is made, and what it changes is brought back when it ends. -/
theorem exists_living (h : guard.inside w.thread = some thread) :
    ∃ living, guard.enter.runOn w = (.ok living, { w with thread := thread }) ∧
      ∀ v : World, v.thread = thread →
        living.leave.runOn v = (.ok (), { v with thread := w.thread }) := by
  have hleave (change : Thread → Thread) (hchange : change thread = w.thread) (v : World)
      (hv : v.thread = thread) :
      (Trace.modifyThread change).runOn v = (.ok (), { v with thread := w.thread }) := by
    rw [← hchange, ← hv]
    rfl
  cases guard with
  | context id =>
      obtain ⟨id, rfl, rfl⟩ :=
        Option.map_eq_some_iff.1 (show id.map w.thread.enter = some thread from h)
      exact ⟨.context id, rfl, hleave (·.forget id) (w.thread.forget_enter id)⟩
  | recording id =>
      obtain rfl := Option.some.inj h
      exact ⟨.recording id w.thread.mode, rfl,
        hleave (fun thread => { thread.forget id with mode := w.thread.mode })
          (w.thread.forget_record id .recording)⟩
  | mode entered =>
      obtain rfl := Option.some.inj h
      exact ⟨.mode w.thread.mode, rfl,
        hleave (fun thread => { thread with mode := w.thread.mode }) rfl⟩

/-- A computation inside a guard runs on the thread inside. If it keeps that thread, the guard
brings the thread outside back. -/
theorem runOn_around (h : guard.inside w.thread = some thread)
    (hrun : x.runOn { w with thread := thread } = (result, w')) (hthread : w'.thread = thread) :
    (guard.around x).runOn w = (result, { w' with thread := w.thread }) := by
  obtain ⟨living, henter, hleave⟩ := exists_living h
  simp only [around, Trace.runOn_bind, henter, Trace.runOn_observing, hrun, hleave w' hthread,
    Trace.runOn_ofExcept]

end GuardScope

end TileTrace
