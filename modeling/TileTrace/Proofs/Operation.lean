import TileTrace.Context.Build

/-!
# Operations and histories

The nine operations that change a context, as data. `Operation.perform` carries
one out for a thread, and `Context.after` carries out a whole history. Read
`Operation.Step` first: it lists what each operation does when it succeeds, and
`Operation.perform_ok` says that it lists everything. An operation that is
refused changes at most the owner, by `Operation.perform_error`.
-/

namespace TileTrace

/-- A change that a thread asks a context for. -/
inductive Operation where
  | openKernel (name : String) (template : Coordinate) (extent : Option Value)
  | openLoop (extent : Option Value)
  | closeLoop
  | recordStep (origin : StepDefinition) (tag : Coordinate) (requested : Option StepId)
      (inputs : List Handle)
  | closeKernel
  | addKernelInput (handle : Handle)
  | addKernelOutput (handle : Handle)
  | setVisualize (node : Option NodeRef) (visualize : Bool)
  | register (node : Option NodeRef)

namespace Context

/-- The context as a thread takes it over. -/
def claimedBy (c : Context) (thread : ThreadId) : Context :=
  { c with owner := some thread }

/-- The kernel that is opened next. -/
def nextKernel (c : Context) (name : String) (template : Coordinate) : Node :=
  ⟨c.size, template, none, true, .kernel name [] []⟩

/-- The grid loop of the kernel that is opened next. -/
def nextGrid (c : Context) (template : Coordinate) (extent : Option Value) : Node :=
  ⟨c.size + 1, template.bind (.bound c.tiles.next.1), some c.size, true,
    .loop .grid c.tiles.next.1 extent⟩

/-- The loop that is opened next in the given one. -/
def nextLoop (c : Context) (outer : Node) (extent : Option Value) : Node :=
  ⟨c.size, outer.tag.bind (.bound c.coords.next.1), some outer.id, true,
    .loop .nested c.coords.next.1 extent⟩

/-- The step that is recorded next in the given loop. -/
def nextStep (c : Context) (outer : Node) (origin : StepDefinition) (definitionId : StepId)
    (tag : Coordinate) (inputs : List Handle) : Node :=
  ⟨c.size, tag, some outer.id, true, .step origin definitionId inputs origin.outputs⟩

/-- The context after a kernel and its grid loop were opened. -/
def withKernel (c : Context) (name : String) (template : Coordinate) (extent : Option Value) :
    Context :=
  { c with
    nodes := (c.nodes.push (c.nextKernel name template)).push (c.nextGrid template extent)
    tiles := c.tiles.next.2
    scope := some ⟨c.size, c.size + 1⟩ }

/-- The context after a loop was opened in the given one, below the given kernel. -/
def withLoop (c : Context) (kernel : NodeId) (outer : Node) (extent : Option Value) : Context :=
  { c with
    nodes := c.nodes.push (c.nextLoop outer extent)
    coords := c.coords.next.2
    scope := some ⟨kernel, c.size⟩ }

/-- The context after a step was recorded in the given loop. -/
def withStep (c : Context) (outer : Node) (origin : StepDefinition) (definitionId : StepId)
    (registry : Registry) (tag : Coordinate) (inputs : List Handle) : Context :=
  { c with
    nodes := c.nodes.push (c.nextStep outer origin definitionId tag inputs)
    registry := registry }

theorem node?_withKernel_kernel (c : Context) (name : String) (template : Coordinate)
    (extent : Option Value) :
    (c.withKernel name template extent).node? c.size = some (c.nextKernel name template) := by
  rw [node?, withKernel, Array.getElem?_push, if_neg (by simp [size]), size,
    Array.getElem?_push_size]

theorem node?_withKernel_grid (c : Context) (name : String) (template : Coordinate)
    (extent : Option Value) :
    (c.withKernel name template extent).node? (c.size + 1) = some (c.nextGrid template extent) := by
  rw [node?, withKernel, Array.getElem?_push, if_pos (by simp [size])]

theorem node?_withLoop (c : Context) (kernel : NodeId) (outer : Node) (extent : Option Value) :
    (c.withLoop kernel outer extent).node? c.size = some (c.nextLoop outer extent) := by
  simp [node?, withLoop, size]

/-- The current scope is the node of the scope's loop. -/
theorem currentLoop?_eq_some {c : Context} {loop : Node} :
    c.currentLoop? = some loop ↔ ∃ scope, c.scope = some scope ∧ c.node? scope.loop = some loop :=
  Option.bind_eq_some_iff

/-- An operation is carried out for the owner, or for the first thread, on the context as the
thread takes it over. -/
theorem claimed_eq {α : Type} (c : Context) (thread : ThreadId)
    (operation : Context → Except Error (α × Context)) :
    c.claimed thread operation =
      if c.owner = none ∨ c.owner = some thread then
        match operation (c.claimedBy thread) with
        | .ok (answer, changed) => (.ok answer, changed)
        | .error e => (.error e, c.claimedBy thread)
      else (.error .foreignThread, c) := by
  unfold claimed
  cases howner : c.owner with
  | none => exact (if_pos (.inl rfl)).symm
  | some owner =>
      by_cases h : owner = thread
      · rw [if_pos (.inr (congrArg some h))]
        exact if_pos h
      · rw [if_neg (by simp [h])]
        exact if_neg h

/-- The operation of a thread that may change the context has succeeded on the context as the
thread takes it over. -/
theorem claimed_ok {α : Type} {c changed : Context} {thread : ThreadId} {answer : α}
    {operation : Context → Except Error (α × Context)}
    (h : c.claimed thread operation = (.ok answer, changed)) :
    operation (c.claimedBy thread) = .ok (answer, changed) := by
  rw [claimed_eq] at h
  split at h
  · split at h
    · next heq => cases h; exact heq
    · cases h
  · cases h

/-- An operation that is refused leaves the context as it was, or as the thread takes it over. -/
theorem claimed_error {α : Type} {c changed : Context} {thread : ThreadId} {e : Error}
    {operation : Context → Except Error (α × Context)}
    (h : c.claimed thread operation = (.error e, changed)) :
    changed = c ∨ changed = c.claimedBy thread := by
  rw [claimed_eq] at h
  split at h
  · split at h <;> cases h
    exact .inr rfl
  · cases h
    exact .inl rfl

variable {c changed : Context} {thread : ThreadId}

/-- A kernel opens only outside of kernels. -/
theorem openKernel_ok {name : String} {template : Coordinate} {extent : Option Value}
    {answer : Node × Node}
    (h : c.openKernel thread name template extent = (.ok answer, changed)) :
    c.scope = none ∧ answer = (c.nextKernel name template, c.nextGrid template extent) ∧
      changed = (c.claimedBy thread).withKernel name template extent := by
  have hok := claimed_ok h
  split at hok
  · cases hok
  · next hscope =>
      cases hok
      refine ⟨hscope, ?_, ?_⟩
      · simp [nextKernel, nextGrid, size, claimedBy, SymbolSource.next]
      · simp [withKernel, nextKernel, nextGrid, size, claimedBy, SymbolSource.next]

/-- A loop opens in the current scope. -/
theorem openLoop_ok {extent : Option Value} {answer : Node}
    (h : c.openLoop thread extent = (.ok answer, changed)) :
    ∃ scope outer, c.scope = some scope ∧ c.node? scope.loop = some outer ∧
      answer = c.nextLoop outer extent ∧
      changed = (c.claimedBy thread).withLoop scope.kernel outer extent := by
  have hok := claimed_ok h
  split at hok
  · cases hok
  · next scope hscope =>
      cases hloop : (c.claimedBy thread).currentLoop? with
      | none => simp [currentTag, hloop, bind, Except.bind] at hok
      | some outer =>
          obtain ⟨scope', hscope', houter⟩ := currentLoop?_eq_some.1 hloop
          obtain rfl : scope = scope' := Option.some.inj (hscope.symm.trans hscope')
          simp only [currentTag, hloop, append, push, bind, Except.bind, pure, Except.pure,
            Except.ok.injEq, Prod.mk.injEq] at hok
          obtain ⟨rfl, rfl⟩ := hok
          exact ⟨scope, outer, hscope, houter, rfl, rfl⟩

/-- A loop that closes is nested, and its parent becomes the current scope. -/
theorem closeLoop_ok {answer : Node} (h : c.closeLoop thread = (.ok answer, changed)) :
    ∃ scope outer, c.scope = some scope ∧ c.node? scope.loop = some answer ∧
      answer.isGridLoop = false ∧ answer.parent = some outer ∧
      changed = { c.claimedBy thread with scope := some ⟨scope.kernel, outer⟩ } := by
  have hok := claimed_ok h
  split at hok
  · next scope loop hscope hloop =>
      obtain ⟨scope', hscope', hnode⟩ := currentLoop?_eq_some.1 hloop
      obtain rfl : scope = scope' := Option.some.inj (hscope.symm.trans hscope')
      split at hok
      · cases hok
      · next hgrid =>
          split at hok
          · cases hok
          · next outer houter =>
              cases hok
              exact ⟨scope, outer, hscope, hnode, by simpa using hgrid, houter, rfl⟩
  · cases hok

/-- A step is recorded in the current scope, under the number of its definition. -/
theorem recordStep_ok {origin : StepDefinition} {tag : Coordinate} {requested : Option StepId}
    {inputs : List Handle} {answer : Node}
    (h : c.recordStep thread origin tag requested inputs = (.ok answer, changed)) :
    ∃ scope outer definitionId registry, c.scope = some scope ∧
      c.node? scope.loop = some outer ∧
      c.registry.bind origin requested = .ok (definitionId, registry) ∧
      answer = c.nextStep outer origin definitionId tag inputs ∧
      changed = (c.claimedBy thread).withStep outer origin definitionId registry tag inputs := by
  have hok := claimed_ok h
  split at hok
  · cases hok
  · next scope hscope =>
      cases hbind : c.registry.bind origin requested with
      | error e => simp [claimedBy, hbind, bind, Except.bind] at hok
      | ok bound =>
          obtain ⟨definitionId, registry⟩ := bound
          cases hloop : (c.claimedBy thread).currentLoop? with
          | none =>
              rw [show (c.claimedBy thread).registry = c.registry from rfl, hbind] at hok
              simp [append, hloop, bind, Except.bind] at hok
          | some outer =>
              obtain ⟨scope', hscope', houter⟩ := currentLoop?_eq_some.1 hloop
              rw [show (c.claimedBy thread).registry = c.registry from rfl, hbind] at hok
              simp only [append, hloop, push, bind, Except.bind, pure, Except.pure,
                Except.ok.injEq, Prod.mk.injEq] at hok
              obtain ⟨rfl, rfl⟩ := hok
              exact ⟨scope', outer, definitionId, registry, hscope', houter, rfl, rfl, rfl⟩

/-- A kernel closes only from its grid loop. -/
theorem closeKernel_ok {answer : Node × Node}
    (h : c.closeKernel thread = (.ok answer, changed)) :
    ∃ scope, c.scope = some scope ∧ c.node? scope.kernel = some answer.1 ∧
      c.node? scope.loop = some answer.2 ∧ scope.loop = gridOf scope.kernel ∧
      changed = { c.claimedBy thread with scope := none } := by
  have hok := claimed_ok h
  split at hok
  · next scope loop hscope hloop =>
      obtain ⟨scope', hscope', hnode⟩ := currentLoop?_eq_some.1 hloop
      obtain rfl : scope = scope' := Option.some.inj (hscope.symm.trans hscope')
      split at hok
      · cases hok
      · next kernel hkernel =>
          split at hok
          · next hgrid => cases hok; exact ⟨scope, hscope, hkernel, hnode, hgrid, rfl⟩
          · cases hok
  · cases hok

/-- An input is added to the open kernel. -/
theorem addKernelInput_ok {handle : Handle} {answer : Unit}
    (h : c.addKernelInput thread handle = (.ok answer, changed)) :
    ∃ scope, c.scope = some scope ∧
      changed = (c.claimedBy thread).modifyNode scope.kernel (Node.addInput handle) := by
  have hok := claimed_ok h
  split at hok
  · next scope hscope => cases hok; exact ⟨scope, hscope, rfl⟩
  · cases hok

/-- An output is added to the open kernel. -/
theorem addKernelOutput_ok {handle : Handle} {answer : Unit}
    (h : c.addKernelOutput thread handle = (.ok answer, changed)) :
    ∃ scope, c.scope = some scope ∧
      changed = (c.claimedBy thread).modifyNode scope.kernel (Node.addOutput handle) := by
  have hok := claimed_ok h
  split at hok
  · next scope hscope => cases hok; exact ⟨scope, hscope, rfl⟩
  · cases hok

/-- Only a node of the open kernel is shown or hidden. -/
theorem setVisualize_ok {node : Option NodeRef} {visualize : Bool} {answer : Unit}
    (h : c.setVisualize thread node visualize = (.ok answer, changed)) :
    ∃ ref, node = some ref ∧ c.inOpenKernel ref = true ∧
      changed = (c.claimedBy thread).modifyNode ref.node.id
        fun n => { n with visualize := visualize } := by
  cases node with
  | none => cases h
  | some ref =>
      have hok := claimed_ok h
      split at hok
      · next hopen => cases hok; exact ⟨ref, rfl, hopen, rfl⟩
      · cases hok

/-- No node is registered a second time. -/
theorem register_ne_ok {node : Option NodeRef} {answer : NodeId} :
    c.register thread node ≠ (.ok answer, changed) := by
  intro h
  cases node with
  | none => cases h
  | some ref => cases claimed_ok h

end Context

namespace Operation

/-- Carry out an operation for a thread. Of the answer only the success is kept. -/
def perform (operation : Operation) (thread : ThreadId) (c : Context) : Context.Attempt Unit :=
  match operation with
  | openKernel name template extent => finished (c.openKernel thread name template extent)
  | openLoop extent => finished (c.openLoop thread extent)
  | closeLoop => finished (c.closeLoop thread)
  | recordStep origin tag requested inputs =>
      finished (c.recordStep thread origin tag requested inputs)
  | closeKernel => finished (c.closeKernel thread)
  | addKernelInput handle => c.addKernelInput thread handle
  | addKernelOutput handle => c.addKernelOutput thread handle
  | setVisualize node visualize => c.setVisualize thread node visualize
  | register node => finished (c.register thread node)
where
  /-- Keep the success and the context. -/
  finished {α : Type} (attempt : Context.Attempt α) : Context.Attempt Unit :=
    (attempt.1.map fun _ => (), attempt.2)

/-- What each operation does when it succeeds. The context is already taken over by the thread. -/
inductive Step (c : Context) : Operation → Context → Prop where
  | openKernel (name : String) (template : Coordinate) (extent : Option Value) :
      c.scope = none →
      Step c (.openKernel name template extent) (c.withKernel name template extent)
  | openLoop (extent : Option Value) (scope : Scope) (outer : Node) :
      c.scope = some scope → c.node? scope.loop = some outer →
      Step c (.openLoop extent) (c.withLoop scope.kernel outer extent)
  | closeLoop (scope : Scope) (loop : Node) (outer : NodeId) :
      c.scope = some scope → c.node? scope.loop = some loop → loop.isGridLoop = false →
      loop.parent = some outer →
      Step c .closeLoop { c with scope := some ⟨scope.kernel, outer⟩ }
  | recordStep (origin : StepDefinition) (tag : Coordinate) (requested : Option StepId)
      (inputs : List Handle) (scope : Scope) (outer : Node) (definitionId : StepId)
      (registry : Registry) :
      c.scope = some scope → c.node? scope.loop = some outer →
      c.registry.bind origin requested = .ok (definitionId, registry) →
      Step c (.recordStep origin tag requested inputs)
        (c.withStep outer origin definitionId registry tag inputs)
  | closeKernel (scope : Scope) (loop kernel : Node) :
      c.scope = some scope → c.node? scope.loop = some loop →
      c.node? scope.kernel = some kernel → scope.loop = Context.gridOf scope.kernel →
      Step c .closeKernel { c with scope := none }
  | addKernelInput (handle : Handle) (scope : Scope) :
      c.scope = some scope →
      Step c (.addKernelInput handle) (c.modifyNode scope.kernel (Node.addInput handle))
  | addKernelOutput (handle : Handle) (scope : Scope) :
      c.scope = some scope →
      Step c (.addKernelOutput handle) (c.modifyNode scope.kernel (Node.addOutput handle))
  | setVisualize (ref : NodeRef) (visualize : Bool) :
      c.inOpenKernel ref = true →
      Step c (.setVisualize (some ref) visualize)
        (c.modifyNode ref.node.id fun n => { n with visualize := visualize })

/-- An operation that succeeds leaves the owner. -/
theorem Step.owner {c changed : Context} {operation : Operation}
    (hstep : Step c operation changed) : changed.owner = c.owner := by
  cases hstep <;> rfl

/-- The attempt behind a successful `finished` one. -/
theorem finished_ok {α : Type} {attempt : Context.Attempt α} {changed : Context}
    (h : perform.finished attempt = (.ok (), changed)) :
    ∃ answer, attempt = (.ok answer, changed) := by
  obtain ⟨result, c⟩ := attempt
  cases result with
  | ok answer => cases h; exact ⟨answer, rfl⟩
  | error e => cases h

/-- The attempt behind a refused `finished` one. -/
theorem finished_error {α : Type} {attempt : Context.Attempt α} {changed : Context} {e : Error}
    (h : perform.finished attempt = (.error e, changed)) : attempt = (.error e, changed) := by
  obtain ⟨result, c⟩ := attempt
  cases result with
  | ok answer => cases h
  | error e => cases h; rfl

/-- An operation that succeeds does what `Step` lists for it. -/
theorem perform_ok {operation : Operation} {thread : ThreadId} {c changed : Context}
    (h : operation.perform thread c = (.ok (), changed)) :
    Step (c.claimedBy thread) operation changed := by
  cases operation with
  | openKernel name template extent =>
      obtain ⟨_, hopen⟩ := finished_ok h
      obtain ⟨hscope, -, rfl⟩ := Context.openKernel_ok hopen
      exact .openKernel _ _ _ hscope
  | openLoop extent =>
      obtain ⟨_, hopen⟩ := finished_ok h
      obtain ⟨scope, outer, hscope, houter, -, rfl⟩ := Context.openLoop_ok hopen
      exact .openLoop _ scope outer hscope houter
  | closeLoop =>
      obtain ⟨loop, hclose⟩ := finished_ok h
      obtain ⟨scope, outer, hscope, hloop, hgrid, hparent, rfl⟩ := Context.closeLoop_ok hclose
      exact .closeLoop scope loop outer hscope hloop hgrid hparent
  | recordStep origin tag requested inputs =>
      obtain ⟨_, hrecord⟩ := finished_ok h
      obtain ⟨scope, outer, definitionId, registry, hscope, houter, hbind, -, rfl⟩ :=
        Context.recordStep_ok hrecord
      exact .recordStep _ _ _ _ scope outer definitionId registry hscope houter hbind
  | closeKernel =>
      obtain ⟨⟨kernel, loop⟩, hclose⟩ := finished_ok h
      obtain ⟨scope, hscope, hkernel, hloop, hgrid, rfl⟩ := Context.closeKernel_ok hclose
      exact .closeKernel scope loop kernel hscope hloop hkernel hgrid
  | addKernelInput handle =>
      obtain ⟨scope, hscope, rfl⟩ := Context.addKernelInput_ok h
      exact .addKernelInput _ scope hscope
  | addKernelOutput handle =>
      obtain ⟨scope, hscope, rfl⟩ := Context.addKernelOutput_ok h
      exact .addKernelOutput _ scope hscope
  | setVisualize node visualize =>
      obtain ⟨ref, rfl, hopen, rfl⟩ := Context.setVisualize_ok h
      exact .setVisualize ref visualize hopen
  | register node =>
      obtain ⟨_, hregister⟩ := finished_ok h
      exact absurd hregister Context.register_ne_ok

/-- An operation that is refused leaves the context as it was, or as the thread takes it over. -/
theorem perform_error {operation : Operation} {thread : ThreadId} {c changed : Context} {e : Error}
    (h : operation.perform thread c = (.error e, changed)) :
    changed = c ∨ changed = c.claimedBy thread := by
  cases operation with
  | openKernel | openLoop | closeLoop | recordStep | closeKernel =>
      exact Context.claimed_error (finished_error h)
  | addKernelInput | addKernelOutput => exact Context.claimed_error h
  | setVisualize node visualize =>
      cases node with
      | none => cases h; exact .inl rfl
      | some ref => exact Context.claimed_error h
  | register node =>
      cases node with
      | none => cases h; exact .inl rfl
      | some ref => exact Context.claimed_error (finished_error h)

/-- The three ways in which an operation ends. -/
theorem perform_cases {P : Context.Attempt Unit → Prop} {operation : Operation}
    {thread : ThreadId} {c : Context}
    (succeeds : ∀ changed, Step (c.claimedBy thread) operation changed → P (.ok (), changed))
    (refused : ∀ e, P (.error e, c)) (claimed : ∀ e, P (.error e, c.claimedBy thread)) :
    P (operation.perform thread c) := by
  cases hperform : operation.perform thread c with
  | mk result changed =>
      cases result with
      | ok answer => exact succeeds changed (perform_ok hperform)
      | error e =>
          obtain rfl | rfl := perform_error hperform
          · exact refused e
          · exact claimed e

end Operation

/-- Operations in order, each with the thread that asks for it. -/
abbrev History := List (ThreadId × Operation)

namespace Context

/-- A context before its first operation. -/
def fresh (id : ContextId) : Context :=
  { id := id }

/-- The context after a history. An operation that is refused does not end the history. -/
def after (c : Context) (history : History) : Context :=
  history.foldl (fun c (thread, operation) => (operation.perform thread c).2) c

theorem after_cons (c : Context) (thread : ThreadId) (operation : Operation) (history : History) :
    c.after ((thread, operation) :: history) = (operation.perform thread c).2.after history := rfl

/-- What holds before a history and is kept by taking over and by every operation that succeeds
holds after the history. -/
theorem after_induction {P : Context → Prop} {c : Context} (history : History) (hstart : P c)
    (hclaim : ∀ c thread, P c → P (c.claimedBy thread))
    (hstep : ∀ c operation changed, P c → Operation.Step c operation changed → P changed) :
    P (c.after history) := by
  induction history generalizing c with
  | nil => exact hstart
  | cons head history ih =>
      obtain ⟨thread, operation⟩ := head
      rw [after_cons]
      refine ih (Operation.perform_cases (P := fun attempt => P attempt.2) ?_ ?_ ?_)
      · exact fun changed => hstep _ operation changed (hclaim c thread hstart)
      · exact fun _ => hstart
      · exact fun _ => hclaim c thread hstart

end Context

end TileTrace
