import TileTrace.FrontEnd
import TileTrace.Proofs.Operation

/-!
# Recording computations

What does a computation do to the context that is recorded into when it returns?
`Trace.bind_ok` takes a returning computation apart. `World.Records` is the
situation while recording, and there is one lemma for each operation that says
how it leaves the context. Print-outs and files never show in the context.
-/

namespace TileTrace

namespace Trace

variable {α β : Type} {w w' w'' : World}

/-- Running a computation goes on with its rest if its first part returns. -/
theorem runOn_bind (x : Trace α) (f : α → Trace β) (w : World) :
    (x >>= f).runOn w =
      match x.runOn w with
      | (.ok a, w') => (f a).runOn w'
      | (.error e, w') => (.error e, w') := by
  unfold runOn
  rw [ExceptT.run_bind, StateT.run_bind]
  obtain ⟨result, w₁⟩ := x.run.run w
  cases result with
  | ok a => rfl
  | error e => rfl

/-- A computation returns when its first part returns and the rest does from there. -/
theorem bind_ok {x : Trace α} {f : α → Trace β} {b : β} :
    (x >>= f).runOn w = (.ok b, w'') ↔
      ∃ a w', x.runOn w = (.ok a, w') ∧ (f a).runOn w' = (.ok b, w'') := by
  rw [runOn_bind]
  obtain ⟨result, w₁⟩ := x.runOn w
  cases result with
  | ok a =>
      constructor
      · intro h
        exact ⟨a, w₁, rfl, h⟩
      · rintro ⟨_, _, heq, h⟩
        cases heq
        exact h
  | error e => simp

@[simp] theorem pure_ok {a b : α} : (pure a : Trace α).runOn w = (.ok b, w') ↔ b = a ∧ w' = w := by
  constructor
  · intro h
    cases h
    exact ⟨rfl, rfl⟩
  · rintro ⟨rfl, rfl⟩
    rfl

@[simp] theorem throw_ne_ok {e : Error} {a : α} : (throw e : Trace α).runOn w ≠ (.ok a, w') := by
  intro h
  cases h

@[simp] theorem get_ok {v : World} :
    (get : Trace World).runOn w = (.ok v, w') ↔ v = w ∧ w' = w := by
  constructor
  · intro h
    cases h
    exact ⟨rfl, rfl⟩
  · rintro ⟨rfl, rfl⟩
    rfl

@[simp] theorem modify_ok {change : World → World} {u : Unit} :
    (modify change : Trace Unit).runOn w = (.ok u, w') ↔ w' = change w := by
  constructor
  · intro h
    cases h
    rfl
  · rintro rfl
    rfl

/-- A known result is returned, and the world stays. -/
@[simp] theorem ofExcept_ok {result : Except Error α} {a : α} :
    (ofExcept result).runOn w = (.ok a, w') ↔ result = .ok a ∧ w' = w := by
  cases result with
  | ok b =>
      rw [ofExcept, pure_ok, Except.ok.injEq, eq_comm]
  | error e => simp [ofExcept]

/-- A computation whose result is no error returns. -/
theorem exists_ok {x : Trace α} (h : (x.runOn w).1.isOk = true) :
    ∃ a w', x.runOn w = (.ok a, w') := by
  cases hrun : x.runOn w with
  | mk result w' =>
      rw [hrun] at h
      cases result with
      | ok a => exact ⟨a, w', rfl⟩
      | error e => cases h

/-- Observing a computation returns its result, whatever it is. -/
theorem observing_ok {x : Trace α} {result : Except Error α} :
    (observing x).runOn w = (.ok result, w') ↔ x.runOn w = (result, w') := by
  have hrun : (observing x).runOn w = (.ok (x.runOn w).1, (x.runOn w).2) := by
    unfold observing runOn
    rw [ExceptT.run_tryCatch, StateT.run_bind, ExceptT.run_bind, StateT.run_bind]
    obtain ⟨result, w₁⟩ := x.run.run w
    cases result with
    | ok a => rfl
    | error e => rfl
  rw [hrun, Prod.mk.injEq, Except.ok.injEq, Prod.ext_iff]

/-- Asking for the context that is recorded into changes nothing. -/
@[simp] theorem target?_ok {found : Option ContextId} :
    FrontEnd.target?.runOn w = (.ok found, w') ↔ found = w.target? ∧ w' = w := by
  rw [FrontEnd.target?, bind_ok]
  constructor
  · rintro ⟨v, v', hget, hreturn⟩
    obtain ⟨rfl, rfl⟩ := get_ok.1 hget
    exact pure_ok.1 hreturn
  · rintro ⟨rfl, rfl⟩
    exact ⟨_, _, get_ok.2 ⟨rfl, rfl⟩, pure_ok.2 ⟨rfl, rfl⟩⟩

end Trace

namespace World

/-- Numbers of contexts are positions in the array of contexts. -/
theorem lt_size_of_context? {w : World} {id : ContextId} {c : Context}
    (h : w.context? id = some c) : id < w.contexts.size := by
  cases hget : w.contexts[id]? with
  | none =>
      rw [context?, hget] at h
      cases h
  | some _ => exact (Array.getElem?_eq_some_iff.1 hget).1

/-- The world records into a context with the given number. Who owns the context is left open. -/
structure Records (w : World) (id : ContextId) (c : Context) : Prop where
  context : ∃ owner, w.context? id = some { c with owner := owner }
  target : w.target? = some id

/-- The worlds differ in what was printed and written only. -/
structure Alike (w w' : World) : Prop where
  contexts : w'.contexts = w.contexts
  thread : w'.thread = w.thread
  disable : w'.disable = w.disable

namespace Alike

theorem refl (w : World) : w.Alike w := ⟨rfl, rfl, rfl⟩

theorem trans {w w' w'' : World} (h : w.Alike w') (h' : w'.Alike w'') : w.Alike w'' :=
  ⟨h'.contexts.trans h.contexts, h'.thread.trans h.thread, h'.disable.trans h.disable⟩

/-- Contexts do not depend on print-outs and files. -/
theorem context? {w w' : World} (h : w.Alike w') (id : ContextId) :
    w'.context? id = w.context? id := by
  rw [World.context?, World.context?, h.contexts]

end Alike

/-- What is recorded into does not depend on print-outs and files. -/
theorem Records.alike {w w' : World} {id : ContextId} {c : Context} (h : w.Records id c)
    (hw : w.Alike w') : w'.Records id c := by
  have htarget : w'.target? = w.target? := by
    unfold target? isRecording
    rw [hw.thread, hw.disable]
  exact ⟨hw.context? id ▸ h.context, htarget ▸ h.target⟩

end World

open World

namespace Trace

variable {w w' : World}

theorem print_alike (w : World) (text : String) : w.Alike (w.print text) := by
  unfold World.print
  split
  · exact .refl w
  · exact ⟨rfl, rfl, rfl⟩

/-- Logging a scope changes print-outs only. -/
theorem logScope_alike {event : String} {n : Node} {u : Unit}
    (h : (logScope event n).runOn w = (.ok u, w')) : w.Alike w' := by
  rw [logScope, bind_ok] at h
  obtain ⟨v, v', hget, h⟩ := h
  obtain ⟨rfl, rfl⟩ := get_ok.1 hget
  split at h
  · obtain rfl := modify_ok.1 h
    exact print_alike _ _
  · obtain ⟨-, rfl⟩ := pure_ok.1 h
    exact .refl _

theorem writeDiagram_alike {tree : Tree} {path : String} {u : Unit}
    (h : (writeDiagram tree path).runOn w = (.ok u, w')) : w.Alike w' := by
  rw [writeDiagram, bind_ok] at h
  obtain ⟨v, v', hget, h⟩ := h
  obtain ⟨rfl, rfl⟩ := get_ok.1 hget
  split at h
  · obtain rfl := modify_ok.1 h
    exact ⟨rfl, rfl, rfl⟩
  · exact absurd h throw_ne_ok

/-- Printing a closed kernel changes print-outs and files only. -/
theorem dumpClosed_alike {kernel : String} {tree : Tree} {u : Unit}
    (h : (dumpClosed kernel tree).runOn w = (.ok u, w')) : w.Alike w' := by
  rw [dumpClosed, bind_ok] at h
  obtain ⟨v, v', hget, h⟩ := h
  obtain ⟨rfl, rfl⟩ := get_ok.1 hget
  extract_lets diagram at h
  have hdiagram {v : World} (hv : (diagram ()).runOn v = (.ok u, w')) : v.Alike w' := by
    obtain ⟨v₁, v₂, hget, hshow⟩ := bind_ok.1 hv
    obtain ⟨rfl, rfl⟩ := get_ok.1 hget
    split at hshow
    · obtain ⟨-, rfl⟩ := pure_ok.1 hshow
      exact .refl _
    · obtain rfl := modify_ok.1 hshow
      exact print_alike _ _
    · exact writeDiagram_alike hshow
  split at h
  · obtain ⟨_, v₁, hprint, h⟩ := bind_ok.1 h
    obtain rfl := modify_ok.1 hprint
    exact (print_alike _ _).trans (hdiagram h)
  · exact hdiagram h

end Trace

namespace World.Records

variable {w w' : World} {id : ContextId} {c : Context}

/-- The context with the given number is the one recorded into, with its owner. -/
theorem context_ok {answer : Context} (h : w.Records id c)
    (hrun : (Trace.context id).runOn w = (.ok answer, w')) :
    w' = w ∧ ∃ owner, answer = { c with owner := owner } := by
  obtain ⟨owner, hcontext⟩ := h.context
  rw [Trace.context, Trace.bind_ok] at hrun
  obtain ⟨v, v', hget, hrun⟩ := hrun
  obtain ⟨rfl, rfl⟩ := Trace.get_ok.1 hget
  rw [hcontext] at hrun
  obtain ⟨rfl, rfl⟩ := Trace.pure_ok.1 hrun
  exact ⟨rfl, owner, rfl⟩

/-- An operation that returns leaves its context in the world. -/
theorem onContext {α : Type} {operation : Context → ThreadId → Context.Attempt α} {answer : α}
    (h : w.Records id c) (hrun : (Trace.onContext id operation).runOn w = (.ok answer, w')) :
    ∃ owner changed, operation { c with owner := owner } w.thread.id = (.ok answer, changed) ∧
      w'.Records id changed := by
  rw [Trace.onContext, Trace.bind_ok] at hrun
  obtain ⟨found, w₁, hfound, hrun⟩ := hrun
  obtain ⟨rfl, owner, rfl⟩ := h.context_ok hfound
  rw [Trace.bind_ok] at hrun
  obtain ⟨v, v', hget, hrun⟩ := hrun
  obtain ⟨rfl, rfl⟩ := Trace.get_ok.1 hget
  split at hrun
  next result changed hoperation =>
    obtain ⟨_, w₂, hset, hrun⟩ := Trace.bind_ok.1 hrun
    obtain rfl := Trace.modify_ok.1 hset
    obtain ⟨rfl, rfl⟩ := Trace.ofExcept_ok.1 hrun
    refine ⟨owner, changed, hoperation, ⟨changed.owner, ?_⟩, h.target⟩
    obtain ⟨_, hcontext⟩ := h.context
    simp [context?, lt_size_of_context? hcontext]

/-- A kernel opens outside of kernels. -/
theorem openKernel {name : String} {template : Coordinate} {extent : Option Value}
    {answer : Node × Node} (h : w.Records id c)
    (hrun : (Trace.openKernel id name template extent).runOn w = (.ok answer, w')) :
    c.scope = none ∧ answer = (c.nextKernel name template, c.nextGrid template extent) ∧
      w'.Records id (c.withKernel name template extent) := by
  obtain ⟨opened, w₁, hopen, hrun⟩ := Trace.bind_ok.1 hrun
  obtain ⟨_, w₂, hkernel, hrun⟩ := Trace.bind_ok.1 hrun
  obtain ⟨_, w₃, hgrid, hrun⟩ := Trace.bind_ok.1 hrun
  obtain ⟨rfl, rfl⟩ := Trace.pure_ok.1 hrun
  obtain ⟨owner, changed, hoperation, h₁⟩ := h.onContext hopen
  obtain ⟨hscope, hanswer, rfl⟩ := Context.openKernel_ok hoperation
  have h₃ := (h₁.alike (Trace.logScope_alike hkernel)).alike (Trace.logScope_alike hgrid)
  exact ⟨hscope, hanswer, h₃.context, h₃.target⟩

/-- A loop opens in the current scope. -/
theorem openLoop {extent : Option Value} {answer : Node} (h : w.Records id c)
    (hrun : (Trace.openLoop id extent).runOn w = (.ok answer, w')) :
    ∃ scope outer, c.scope = some scope ∧ c.node? scope.loop = some outer ∧
      answer = c.nextLoop outer extent ∧ w'.Records id (c.withLoop scope.kernel outer extent) := by
  obtain ⟨opened, w₁, hopen, hrun⟩ := Trace.bind_ok.1 hrun
  obtain ⟨_, w₂, hlog, hrun⟩ := Trace.bind_ok.1 hrun
  obtain ⟨rfl, rfl⟩ := Trace.pure_ok.1 hrun
  obtain ⟨owner, changed, hoperation, h₁⟩ := h.onContext hopen
  obtain ⟨scope, outer, hscope, houter, hanswer, rfl⟩ := Context.openLoop_ok hoperation
  have h₂ := h₁.alike (Trace.logScope_alike hlog)
  exact ⟨scope, outer, hscope, houter, hanswer, h₂.context, h₂.target⟩

/-- The current loop closes, and its parent becomes the current scope. -/
theorem closeLoop {u : Unit} (h : w.Records id c)
    (hrun : (Trace.closeLoop id).runOn w = (.ok u, w')) :
    ∃ scope loop outer, c.scope = some scope ∧ c.node? scope.loop = some loop ∧
      loop.parent = some outer ∧
      w'.Records id { c with scope := some ⟨scope.kernel, outer⟩ } := by
  obtain ⟨closed, w₁, hclose, hrun⟩ := Trace.bind_ok.1 hrun
  obtain ⟨owner, changed, hoperation, h₁⟩ := h.onContext hclose
  obtain ⟨scope, outer, hscope, hloop, -, hparent, rfl⟩ := Context.closeLoop_ok hoperation
  have h₂ := h₁.alike (Trace.logScope_alike hrun)
  exact ⟨scope, closed, outer, hscope, hloop, hparent, h₂.context, h₂.target⟩

/-- A step is recorded in the current scope. -/
theorem recordStep {origin : StepDefinition} {tag : Coordinate} {requested : Option StepId}
    {inputs : List Handle} {answer : Node} (h : w.Records id c)
    (hrun : (Trace.recordStep id origin tag requested inputs).runOn w = (.ok answer, w')) :
    ∃ scope outer definitionId registry, c.scope = some scope ∧
      c.node? scope.loop = some outer ∧
      c.registry.bind origin requested = .ok (definitionId, registry) ∧
      w'.Records id (c.withStep outer origin definitionId registry tag inputs) := by
  obtain ⟨recorded, w₁, hrecord, hrun⟩ := Trace.bind_ok.1 hrun
  obtain ⟨_, w₂, hlog, hrun⟩ := Trace.bind_ok.1 hrun
  obtain ⟨rfl, rfl⟩ := Trace.pure_ok.1 hrun
  obtain ⟨owner, changed, hoperation, h₁⟩ := h.onContext hrecord
  obtain ⟨scope, outer, definitionId, registry, hscope, houter, hbind, -, rfl⟩ :=
    Context.recordStep_ok hoperation
  have h₂ := h₁.alike (Trace.logScope_alike hlog)
  exact ⟨scope, outer, definitionId, registry, hscope, houter, hbind, h₂.context, h₂.target⟩

/-- The open kernel closes. -/
theorem closeKernel {answer : Node} (h : w.Records id c)
    (hrun : (Trace.closeKernel id).runOn w = (.ok answer, w')) :
    w'.Records id { c with scope := none } := by
  obtain ⟨⟨kernel, grid⟩, w₁, hclose, hrun⟩ := Trace.bind_ok.1 hrun
  obtain ⟨_, w₂, hgrid, hrun⟩ := Trace.bind_ok.1 hrun
  obtain ⟨_, w₃, hkernel, hrun⟩ := Trace.bind_ok.1 hrun
  obtain ⟨owner, changed, hoperation, h₁⟩ := h.onContext hclose
  obtain ⟨scope, -, -, -, -, rfl⟩ := Context.closeKernel_ok hoperation
  have h₃ := (h₁.alike (Trace.logScope_alike hgrid)).alike (Trace.logScope_alike hkernel)
  have hclosed : w₃.Records id { c with scope := none } := ⟨h₃.context, h₃.target⟩
  obtain ⟨found, w₄, hfound, hprint⟩ := Trace.bind_ok.1 hrun
  obtain ⟨rfl, -⟩ := h₃.context_ok hfound
  dsimp only at hprint
  split at hprint
  · obtain ⟨_, w₅, hdump, hreturn⟩ := Trace.bind_ok.1 hprint
    obtain ⟨-, rfl⟩ := Trace.pure_ok.1 hreturn
    exact hclosed.alike (Trace.dumpClosed_alike hdump)
  · obtain ⟨-, rfl⟩ := Trace.pure_ok.1 hprint
    exact hclosed

/-- An input is added to the open kernel. -/
theorem addKernelInput {handle : Handle} {u : Unit} (h : w.Records id c)
    (hrun : (Trace.addKernelInput id handle).runOn w = (.ok u, w')) :
    ∃ scope, c.scope = some scope ∧
      w'.Records id (c.modifyNode scope.kernel (Node.addInput handle)) := by
  obtain ⟨owner, changed, hoperation, h₁⟩ := h.onContext hrun
  obtain ⟨scope, hscope, rfl⟩ := Context.addKernelInput_ok hoperation
  exact ⟨scope, hscope, h₁.context, h₁.target⟩

/-- An output is added to the open kernel. -/
theorem addKernelOutput {handle : Handle} {u : Unit} (h : w.Records id c)
    (hrun : (Trace.addKernelOutput id handle).runOn w = (.ok u, w')) :
    ∃ scope, c.scope = some scope ∧
      w'.Records id (c.modifyNode scope.kernel (Node.addOutput handle)) := by
  obtain ⟨owner, changed, hoperation, h₁⟩ := h.onContext hrun
  obtain ⟨scope, hscope, rfl⟩ := Context.addKernelOutput_ok hoperation
  exact ⟨scope, hscope, h₁.context, h₁.target⟩

end World.Records

end TileTrace
