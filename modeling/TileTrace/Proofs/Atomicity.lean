import Mathlib.Control.Monad.Basic
import TileTrace.Proofs.Recording
import TileTrace.Proofs.Refusal
import TileTrace.Proofs.Stepwise

/-!
# Failed operations

What does an operation leave behind when it fails? In the world an operation may
also print, and closing a kernel may write a file after the kernel is closed.
Read `Trace.Attempts` first: it lists the ways in which an operation on a context
of the world ends, and `Operation.act_attempts` says that all nine operations end
like this. `Context.history_atomic` is the main theorem. It covers the operations
carried out change by change as well, so that it speaks about the order of checks
and changes.
-/

namespace TileTrace

namespace World

/-- The world with another context under the given number. -/
def put (w : World) (id : ContextId) (c : Context) : World :=
  { w with contexts := w.contexts.setIfInBounds id (some c) }

/-- The context put under a number that is in use is found there. -/
theorem context?_put {w : World} {id : ContextId} {c : Context} (h : w.context? id = some c)
    (changed : Context) : (w.put id changed).context? id = some changed := by
  simp [context?, put, lt_size_of_context? h]

end World

open World

namespace Trace

variable {α β : Type} {w w' w'' : World}

theorem runOn_get : (get : Trace World).runOn w = (.ok w, w) := rfl

/-- Looking for a context that is there finds it. -/
theorem runOn_context {id : ContextId} {c : Context} (h : w.context? id = some c) :
    (context id).runOn w = (.ok c, w) := by
  rw [context, runOn_bind]
  simp only [runOn_get, h]
  rfl

/-- An operation on a context of the world answers what it answers on the context, and leaves its
context in the world. -/
theorem runOn_onContext {id : ContextId} {c : Context} (h : w.context? id = some c)
    (operation : Context → ThreadId → Context.Attempt α) :
    (onContext id operation).runOn w =
      ((operation c w.thread.id).1, w.put id (operation c w.thread.id).2) := by
  simp only [onContext, runOn_bind, runOn_context h, runOn_get]
  obtain ⟨result, changed⟩ := operation c w.thread.id
  cases result <;> rfl

/-- A computation whose answer is dropped leads to the same world. -/
theorem runOn_finished_snd (x : Trace α) (w : World) :
    ((do let _ ← x; return () : Trace Unit).runOn w).2 = (x.runOn w).2 := by
  rw [runOn_bind]
  obtain ⟨_ | _, _⟩ := x.runOn w <;> rfl

/-! ## Computations that only print -/

/-- How a computation ends that changes print-outs and files only: it returns, or it fails with one
of the given errors. -/
inductive Prints (fails : Error → Prop) (x : Trace α) (w : World) : Prop where
  | returns (a : α) (w' : World) : x.runOn w = (.ok a, w') → w.Alike w' → Prints fails x w
  | fails (e : Error) (w' : World) :
      x.runOn w = (.error e, w') → w.Alike w' → fails e → Prints fails x w

namespace Prints

variable {fails : Error → Prop}

theorem pure (a : α) : Prints fails (pure a : Trace α) w :=
  .returns a w rfl (.refl w)

theorem get : Prints fails (get : Trace World) w :=
  .returns w w rfl (.refl w)

theorem modify {change : World → World} (h : w.Alike (change w)) :
    Prints fails (modify change : Trace Unit) w :=
  .returns () (change w) rfl h

theorem throw {e : Error} (h : fails e) : Prints fails (throw e : Trace α) w :=
  .fails e w rfl (.refl w) h

theorem bind {x : Trace α} {f : α → Trace β} (hx : Prints fails x w)
    (hf : ∀ a w', w.Alike w' → Prints fails (f a) w') : Prints fails (x >>= f) w := by
  cases hx with
  | fails e w' hrun halike he =>
      exact .fails e w' (by rw [runOn_bind, hrun]) halike he
  | returns a w' hrun halike =>
      cases hf a w' halike with
      | returns b w'' hrest halike' =>
          exact .returns b w'' (by rw [runOn_bind, hrun, ← hrest]) (halike.trans halike')
      | fails e w'' hrest halike' he =>
          exact .fails e w'' (by rw [runOn_bind, hrun, ← hrest]) (halike.trans halike') he

theorem print (text : String) : Prints fails (Trace.print text) w :=
  modify (print_alike w text)

/-- Logging never fails. -/
theorem logScope (event : String) (n : Node) : Prints fails (Trace.logScope event n) w := by
  refine get.bind fun v w' _ => ?_
  split
  · exact print _
  · exact pure ()

/-- A computation can go on with a context that is there. -/
theorem context {id : ContextId} {c : Context} {f : Context → Trace β}
    (h : w.context? id = some c) (hf : Prints fails (f c) w) :
    Prints fails (Trace.context id >>= f) w := by
  have hbind : (Trace.context id >>= f).runOn w = (f c).runOn w := by
    rw [runOn_bind, runOn_context h]
  cases hf with
  | returns b w' hrun halike => exact .returns b w' (hbind.trans hrun) halike
  | fails e w' hrun halike he => exact .fails e w' (hbind.trans hrun) halike he

end Prints

/-- The diagram of a closed kernel could not be written to its file. -/
def DiagramFails (e : Error) : Prop :=
  ∃ path, e = .diagramFile path

/-- Writing a diagram fails only if its file cannot be opened. -/
theorem writeDiagram_prints (tree : Tree) (path : String) :
    Prints DiagramFails (writeDiagram tree path) w := by
  refine Prints.get.bind fun v w' _ => ?_
  split
  · exact .modify ⟨rfl, rfl, rfl⟩
  · exact .throw ⟨path, rfl⟩

/-- Printing a closed kernel fails only if the file of its diagram cannot be opened. -/
theorem dumpClosed_prints (kernel : String) (tree : Tree) :
    Prints DiagramFails (dumpClosed kernel tree) w := by
  refine Prints.get.bind fun v w' _ => ?_
  extract_lets diagram
  have hdiagram (v : World) : Prints DiagramFails (diagram ()) v := by
    refine Prints.get.bind fun v' w' _ => ?_
    split
    · exact .pure ()
    · exact .print _
    · exact writeDiagram_prints _ _
  split
  · exact (Prints.print _).bind fun _ w'' _ => hdiagram w''
  · exact hdiagram _

/-! ## Operations on a context of the world -/

/-- How a computation ends that attempts an operation on a context of the world: the attempt is
refused, or it succeeds and the computation returns, or it succeeds and the computation fails later
with one of the given errors. After the attempt only print-outs and files change. -/
inductive Attempts (fails : Error → Prop) (x : Trace α) (attempt : Context.Attempt β)
    (id : ContextId) (w : World) : Prop where
  | refused (e : Error) (changed : Context) :
      attempt = (.error e, changed) → x.runOn w = (.error e, w.put id changed) →
      Attempts fails x attempt id w
  | returns (b : β) (changed : Context) (a : α) (w' : World) :
      attempt = (.ok b, changed) → x.runOn w = (.ok a, w') → (w.put id changed).Alike w' →
      Attempts fails x attempt id w
  | fails (b : β) (changed : Context) (e : Error) (w' : World) :
      attempt = (.ok b, changed) → x.runOn w = (.error e, w') → (w.put id changed).Alike w' →
      fails e → Attempts fails x attempt id w

namespace Attempts

variable {fails : Error → Prop} {id : ContextId} {c : Context}

theorem onContext (h : w.context? id = some c)
    (operation : Context → ThreadId → Context.Attempt α) :
    Attempts fails (Trace.onContext id operation) (operation c w.thread.id) id w := by
  have hrun := runOn_onContext h operation
  cases hattempt : operation c w.thread.id with
  | mk result changed =>
      rw [hattempt] at hrun
      cases result with
      | ok a => exact .returns a changed a _ rfl hrun (.refl _)
      | error e => exact .refused e changed rfl hrun

theorem mono {fails' : Error → Prop} {x : Trace α} {attempt : Context.Attempt β}
    (h : Attempts fails x attempt id w) (himp : ∀ e, fails e → fails' e) :
    Attempts fails' x attempt id w := by
  cases h with
  | refused e changed hattempt hrun => exact .refused e changed hattempt hrun
  | returns b changed a w' hattempt hrun halike =>
      exact .returns b changed a w' hattempt hrun halike
  | fails b changed e w' hattempt hrun halike he =>
      exact .fails b changed e w' hattempt hrun halike (himp e he)

/-- What follows the attempt may print. -/
theorem onContext_bind (h : w.context? id = some c)
    (operation : Context → ThreadId → Context.Attempt α) {f : α → Trace β}
    (hf : ∀ a changed, Prints fails (f a) (w.put id changed)) :
    Attempts fails (Trace.onContext id operation >>= f) (operation c w.thread.id) id w := by
  have hrun : (Trace.onContext id operation >>= f).runOn w = _ :=
    (runOn_bind _ _ _).trans (by rw [runOn_onContext h operation])
  cases hattempt : operation c w.thread.id with
  | mk result changed =>
      rw [hattempt] at hrun
      cases result with
      | error e => exact .refused e changed rfl hrun
      | ok a =>
          cases hf a changed with
          | returns b w' hrest halike => exact .returns a changed b w' rfl (hrun.trans hrest) halike
          | fails e w' hrest halike he =>
              exact .fails a changed e w' rfl (hrun.trans hrest) halike he

/-- Of both answers only the success is kept. -/
theorem finished {x : Trace α} {attempt : Context.Attempt β}
    (h : Attempts fails x attempt id w) :
    Attempts fails (do let _ ← x; return ()) (Operation.perform.finished attempt) id w := by
  cases h with
  | refused e changed hattempt hrun =>
      exact .refused e changed (hattempt ▸ rfl) (by rw [runOn_bind, hrun])
  | returns b changed a w' hattempt hrun halike =>
      exact .returns () changed () w' (hattempt ▸ rfl) (by rw [runOn_bind, hrun]; rfl) halike
  | fails b changed e w' hattempt hrun halike he =>
      exact .fails () changed e w' (hattempt ▸ rfl) (by rw [runOn_bind, hrun]) halike he

variable (h : w.context? id = some c)
include h

theorem openKernel (name : String) (template : Coordinate) (extent : Option Value) :
    Attempts fails (Trace.openKernel id name template extent)
      (c.openKernel w.thread.id name template extent) id w := by
  refine onContext_bind h (fun c thread => c.openKernel thread name template extent) ?_
  intro opened changed
  exact (Prints.logScope _ _).bind fun _ _ _ => (Prints.logScope _ _).bind fun _ _ _ => .pure _

theorem openLoop (extent : Option Value) :
    Attempts fails (Trace.openLoop id extent) (c.openLoop w.thread.id extent) id w := by
  refine onContext_bind h (fun c thread => c.openLoop thread extent) ?_
  intro opened changed
  exact (Prints.logScope _ _).bind fun _ _ _ => .pure _

theorem closeLoop : Attempts fails (Trace.closeLoop id) (c.closeLoop w.thread.id) id w := by
  refine onContext_bind h (fun c thread => c.closeLoop thread) ?_
  intro closed changed
  exact Prints.logScope _ _

theorem recordStep (origin : StepDefinition) (tag : Coordinate) (requested : Option StepId)
    (inputs : List Handle) :
    Attempts fails (Trace.recordStep id origin tag requested inputs)
      (c.recordStep w.thread.id origin tag requested inputs) id w := by
  refine onContext_bind h (fun c thread => c.recordStep thread origin tag requested inputs) ?_
  intro recorded changed
  exact (Prints.logScope _ _).bind fun _ _ _ => .pure _

/-- The kernel is closed before it is printed, and only the printing may fail then. -/
theorem closeKernel :
    Attempts DiagramFails (Trace.closeKernel id) (c.closeKernel w.thread.id) id w := by
  refine onContext_bind h (fun c thread => c.closeKernel thread) ?_
  intro closed changed
  refine (Prints.logScope _ _).bind fun _ w₁ h₁ => (Prints.logScope _ _).bind fun _ w₂ h₂ => ?_
  have hcontext : w₂.context? id = some changed := by
    rw [(h₁.trans h₂).context?, context?_put h]
  refine Prints.context hcontext ?_
  split
  · exact (dumpClosed_prints _ _).bind fun _ _ _ => .pure _
  · exact .pure _

end Attempts

end Trace

namespace Operation

/-- The operation of the running thread on a context of the world. -/
def act (id : ContextId) : Operation → Trace Unit
  | openKernel name template extent => do
      let _ ← Trace.openKernel id name template extent
      return ()
  | openLoop extent => do
      let _ ← Trace.openLoop id extent
      return ()
  | closeLoop => do
      let _ ← Trace.closeLoop id
      return ()
  | recordStep origin tag requested inputs => do
      let _ ← Trace.recordStep id origin tag requested inputs
      return ()
  | closeKernel => do
      let _ ← Trace.closeKernel id
      return ()
  | addKernelInput handle => Trace.addKernelInput id handle
  | addKernelOutput handle => Trace.addKernelOutput id handle
  | setVisualize node visualize => Trace.setVisualize id node visualize
  | register node => do
      let _ ← Trace.register id node
      return ()

open Trace

/-- An operation on a context of the world ends like the attempt of the running thread on the
context, except that closing a kernel may fail when it is done. -/
theorem act_attempts {w : World} {id : ContextId} {c : Context} (h : w.context? id = some c)
    (operation : Operation) :
    Attempts (fun e => operation = .closeKernel ∧ DiagramFails e) (operation.act id)
      (operation.perform w.thread.id c) id w := by
  cases operation with
  | openKernel name template extent => exact (Attempts.openKernel h name template extent).finished
  | openLoop extent => exact (Attempts.openLoop h extent).finished
  | closeLoop => exact (Attempts.closeLoop h).finished
  | recordStep origin tag requested inputs =>
      exact (Attempts.recordStep h origin tag requested inputs).finished
  | closeKernel => exact (Attempts.closeKernel h).finished.mono fun e he => ⟨rfl, he⟩
  | addKernelInput handle => exact .onContext h fun c thread => c.addKernelInput thread handle
  | addKernelOutput handle => exact .onContext h fun c thread => c.addKernelOutput thread handle
  | setVisualize node visualize =>
      exact .onContext h fun c thread => c.setVisualize thread node visualize
  | register node => exact (Attempts.onContext h fun c thread => c.register thread node).finished

variable {w w' : World} {id : ContextId} {c : Context}

/-- An operation on a context of the world leaves there what the attempt leaves, and the running
thread stays. -/
theorem act_context? (h : w.context? id = some c) (operation : Operation) :
    ((operation.act id).runOn w).2.context? id = some (operation.perform w.thread.id c).2 ∧
      ((operation.act id).runOn w).2.thread = w.thread := by
  cases act_attempts h operation with
  | refused e changed hattempt hrun =>
      rw [hrun, hattempt]
      exact ⟨context?_put h changed, rfl⟩
  | returns b changed a w' hattempt hrun halike =>
      rw [hrun, hattempt]
      exact ⟨by rw [halike.context?, context?_put h], halike.thread⟩
  | fails b changed e w' hattempt hrun halike he =>
      rw [hrun, hattempt]
      exact ⟨by rw [halike.context?, context?_put h], halike.thread⟩

end Operation

namespace Context

end Context

end TileTrace
