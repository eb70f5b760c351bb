import TileTrace.Proofs.Arranged
import TileTrace.Proofs.Program
import TileTrace.Proofs.Recording

/-!
# Recording a program records its meaning

The front end puts nodes at the end of a context, below whatever loop is open.
`Functions.record_kernels` says that it thereby builds the trees that
`Program.kernels` defines by recursion. A run of a part of a program is compared
with its meaning by `Contributes`: the nodes that the run adds are those of the
trees, in depth-first order, and the scope is as before.
-/

namespace TileTrace

open TileTrace.Tree

/-! ## Returning computations -/

namespace Play

variable {α β : Type} {log log' log'' : List Invocation} {w w' w'' : World}

/-- The computation returns, and leaves the given list of invocations and world. -/
def Returns (action : Play α) (log : List Invocation) (w : World) (a : α) (log' : List Invocation)
    (w' : World) : Prop :=
  (action.run log).runOn w = (.ok (a, log'), w')

theorem returns_bind {x : Play α} {f : α → Play β} {b : β} :
    (x >>= f).Returns log w b log'' w'' ↔
      ∃ a log' w', x.Returns log w a log' w' ∧ (f a).Returns log' w' b log'' w'' := by
  unfold Returns
  rw [StateT.run_bind, Trace.bind_ok]
  constructor
  · rintro ⟨⟨a, log'⟩, w', hx, hf⟩
    exact ⟨a, log', w', hx, hf⟩
  · rintro ⟨a, log', w', hx, hf⟩
    exact ⟨(a, log'), w', hx, hf⟩

@[simp] theorem returns_pure {a b : α} :
    (pure a : Play α).Returns log w b log' w' ↔ b = a ∧ log' = log ∧ w' = w := by
  unfold Returns
  rw [StateT.run_pure, Trace.pure_ok, Prod.mk.injEq, and_assoc]

/-- A computation on the world leaves the list of invocations. -/
@[simp] theorem returns_lift {x : Trace α} {a : α} :
    (liftM x : Play α).Returns log w a log' w' ↔ log' = log ∧ x.runOn w = (.ok a, w') := by
  change (x >>= fun a => pure (a, log)).runOn w = _ ↔ _
  rw [Trace.bind_ok]
  constructor
  · rintro ⟨b, w₁, hx, hreturn⟩
    obtain ⟨heq, rfl⟩ := Trace.pure_ok.1 hreturn
    cases heq
    exact ⟨rfl, hx⟩
  · rintro ⟨rfl, hx⟩
    exact ⟨a, w', hx, Trace.pure_ok.2 ⟨rfl, rfl⟩⟩

@[simp] theorem returns_modify {change : List Invocation → List Invocation} {u : Unit} :
    (modify change : Play Unit).Returns log w u log' w' ↔ log' = change log ∧ w' = w := by
  unfold Returns
  rw [StateT.run_modify, Trace.pure_ok, Prod.mk.injEq, and_iff_right rfl]

/-- What follows the question for the context that is recorded into. -/
theorem returns_target {f : Option ContextId → Play α} {a : α} :
    (liftM FrontEnd.target? >>= f).Returns log w a log' w' ↔
      (f w.target?).Returns log w a log' w' := by
  rw [returns_bind]
  constructor
  · rintro ⟨found, log₁, w₁, hfound, hf⟩
    obtain ⟨rfl, htarget⟩ := returns_lift.1 hfound
    obtain ⟨rfl, rfl⟩ := Trace.target?_ok.1 htarget
    exact hf
  · intro hf
    exact ⟨_, log, w, returns_lift.2 ⟨rfl, Trace.target?_ok.2 ⟨rfl, rfl⟩⟩, hf⟩

@[simp] theorem not_returns_throw {e : Error} {a : α} :
    ¬(throw e : Play α).Returns log w a log' w' := by
  intro h
  cases h

end Play

/-! ## Growing contexts -/

namespace Context

/-- The loop is the current scope, below the kernel with the given number. -/
structure Within (c : Context) (kernel : NodeId) (scope : Node) : Prop where
  current : c.scope = some ⟨kernel, scope.id⟩
  node : c.node? scope.id = some scope

/-- The second context has trees more than the first, which hang below the given parent. -/
structure Grown (c : Context) (parent : Option NodeId) (ts : List Tree) (c' : Context) : Prop where
  nodes : c'.nodes.toList = c.nodes.toList ++ forestToList ts
  scope : c'.scope = c.scope
  numbered : ForestNumbered parent c.size ts

namespace Grown

variable {c c' c'' : Context} {parent : Option NodeId} {ts us : List Tree}

theorem refl (c : Context) (parent : Option NodeId) : c.Grown parent [] c :=
  ⟨by rw [forestToList, List.append_nil], rfl, trivial⟩

theorem size_eq (h : c.Grown parent ts c') : c'.size = c.size + (forestToList ts).length := by
  rw [size, size, ← Array.length_toList, ← Array.length_toList, h.nodes, List.length_append]

theorem trans (h : c.Grown parent ts c') (h' : c'.Grown parent us c'') :
    c.Grown parent (ts ++ us) c'' := by
  refine ⟨?_, h'.scope.trans h.scope, h.numbered.append (h.size_eq ▸ h'.numbered)⟩
  rw [h'.nodes, h.nodes, forestToList_append, List.append_assoc]

/-- Nodes are found under the same numbers in a context that has grown. -/
theorem node? (h : c.Grown parent ts c') {i : Nat} {n : Node} (hn : c.node? i = some n) :
    c'.node? i = some n := by
  rw [Context.node?, ← Array.getElem?_toList] at hn ⊢
  rw [h.nodes]
  exact getElem?_append_of_eq_some hn

/-- A context that has grown has the same scope. -/
theorem within (h : c.Grown parent ts c') {kernel : NodeId} {scope : Node}
    (hscope : c.Within kernel scope) : c'.Within kernel scope :=
  ⟨h.scope.trans hscope.current, h.node? hscope.node⟩

end Grown

/-- A context grows by a step. -/
theorem grown_withStep (c : Context) (scope : Node) (d : StepDefinition) (number : StepId)
    (registry : Registry) (tag : Coordinate) (args : List Argument) :
    c.Grown (some scope.id) [.node (c.cursor.step scope d number tag args) []]
      (c.withStep scope d number registry tag (Argument.handles args)) := by
  refine ⟨?_, rfl, ⟨rfl, rfl, trivial⟩, trivial⟩
  rw [withStep, Array.toList_push]
  rfl

/-- A context grows by a loop when its body is added below it and it is closed. -/
theorem Within.grown_withLoop {c c' : Context} {kernel : NodeId} {scope : Node} {extent : Value}
    {ts : List Tree} (h : c.Within kernel scope)
    (hbody : (c.withLoop kernel scope (some extent)).Grown (some c.size) ts c') :
    c.Grown (some scope.id) [.node (c.cursor.loop scope extent) ts]
      { c' with scope := some ⟨kernel, scope.id⟩ } := by
  have hsize : (c.withLoop kernel scope (some extent)).size = c.size + 1 := Array.size_push _
  refine ⟨?_, h.current.symm, ⟨rfl, rfl, hsize ▸ hbody.numbered⟩, trivial⟩
  change c'.nodes.toList = _
  rw [hbody.nodes, withLoop, Array.toList_push, List.append_assoc, forestToList, forestToList,
    List.append_nil]
  rfl

theorem cursor_withLoop (c : Context) (kernel : NodeId) (scope : Node) (extent : Option Value) :
    (c.withLoop kernel scope extent).cursor = c.cursor.afterLoop := by
  rw [cursor, size, withLoop, Array.size_push]
  rfl

theorem cursor_withStep (c : Context) (scope : Node) (d : StepDefinition) (number : StepId)
    (registry : Registry) (tag : Coordinate) (inputs : List Handle) :
    (c.withStep scope d number registry tag inputs).cursor = c.cursor.afterStep registry := by
  rw [cursor, size, withStep, Array.size_push]
  rfl

/-- A loop that was just opened is the current scope. -/
theorem within_withLoop (c : Context) (kernel : NodeId) (scope : Node) (extent : Option Value) :
    (c.withLoop kernel scope extent).Within kernel (c.nextLoop scope extent) :=
  ⟨rfl, Array.getElem?_push_size⟩

end Context

/-! ## Launches -/

namespace Context

/-- The context with an open kernel and its grid loop at the end. -/
def opened (c : Context) (kernel grid : Node) : Context :=
  { c with
    nodes := (c.nodes.push kernel).push grid
    tiles := c.tiles.next.2
    scope := some ⟨c.size, c.size + 1⟩ }

theorem cursor_opened (c : Context) (kernel grid : Node) :
    (c.opened kernel grid).cursor = c.cursor.afterGrid := by
  rw [cursor, size, opened, Array.size_push, Array.size_push]
  rfl

/-- The grid loop of the open kernel is the current scope. -/
theorem within_opened (c : Context) (kernel : Node) (launch : Launch) :
    (c.opened kernel (c.cursor.grid launch)).Within c.size (c.cursor.grid launch) := by
  refine ⟨rfl, ?_⟩
  have hget : ((c.nodes.push kernel).push (c.cursor.grid launch))[(c.nodes.push kernel).size]? =
      some (c.cursor.grid launch) := Array.getElem?_push_size
  rwa [Array.size_push] at hget

/-- A context grows by a kernel when the body is added below its grid loop and it is closed. -/
theorem grown_opened {c c' : Context} {launch : Launch} {ts : List Tree} (hscope : c.scope = none)
    (hbody : (c.opened (c.cursor.kernel launch) (c.cursor.grid launch)).Grown
      (some (c.cursor.grid launch).id) ts c') :
    c.Grown none [.node (c.cursor.kernel launch) [.node (c.cursor.grid launch) ts]]
      { c' with scope := none } := by
  have hsize : (c.opened (c.cursor.kernel launch) (c.cursor.grid launch)).size = c.size + 2 := by
    rw [size, opened, Array.size_push, Array.size_push]
    rfl
  refine ⟨?_, hscope.symm, ⟨rfl, rfl, ⟨rfl, rfl, hsize ▸ hbody.numbered⟩, trivial⟩, trivial⟩
  change c'.nodes.toList = _
  rw [hbody.nodes, opened, Array.toList_push, Array.toList_push]
  simp [forestToList, Tree.toList]

/-- Changing the open kernel. -/
theorem opened_modifyNode (c : Context) (kernel grid : Node) (change : Node → Node) :
    (c.opened kernel grid).modifyNode c.size change = c.opened (change kernel) grid := by
  have hnodes : ((c.nodes.push kernel).push grid).modify c.size change =
      (c.nodes.push (change kernel)).push grid := by
    apply Array.ext_getElem?
    intro i
    rw [Array.getElem?_modify]
    simp only [Array.getElem?_push, Array.size_push, size]
    split
    · next hi => subst hi; simp
    · next hi => simp [Ne.symm hi]
  rw [modifyNode, opened, opened, hnodes]

end Context

namespace World.Records

variable {id : ContextId} {c : Context} {w w' : World} {grid : Node}

/-- What comes before the function of a step records the step. -/
theorem beforeStep {d : StepDefinition} {args : List Argument} (h : w.Records id c)
    (hrun : (FrontEnd.beforeStep d args).runOn w = (.ok (), w')) :
    args.length = d.parameters.length ∧ ∃ tag scope outer number registry,
      d.tagOf args = some tag ∧ c.scope = some scope ∧ c.node? scope.loop = some outer ∧
      c.registry.bind d d.requestedId = .ok (number, registry) ∧
      w'.Records id (c.withStep outer d number registry tag (Argument.handles args)) := by
  obtain ⟨_, _, harity, hrecorded⟩ := Trace.bind_ok.1 hrun
  obtain ⟨hcounted, rfl⟩ := Trace.ofExcept_ok.1 harity
  obtain ⟨_, _, htarget, hstep⟩ := Trace.bind_ok.1 hrecorded
  obtain ⟨rfl, rfl⟩ := Trace.target?_ok.1 htarget
  rw [h.target] at hstep
  obtain ⟨tag, _, htag, hregister⟩ := Trace.bind_ok.1 hstep
  obtain ⟨htagged, rfl⟩ := Trace.ofExcept_ok.1 htag
  obtain ⟨node, _, hnode, hreturn⟩ := Trace.bind_ok.1 hregister
  obtain ⟨-, rfl⟩ := Trace.pure_ok.1 hreturn
  obtain ⟨scope, outer, number, registry, hscope, houter, hbind, h₁⟩ := h.recordStep hnode
  rw [StepDefinition.inputsOf_eq_handles] at h₁
  exact ⟨StepDefinition.checkArity_eq_ok.1 hcounted, tag, scope, outer, number, registry,
    StepDefinition.resolveTag_eq_ok.1 htagged, hscope, houter, hbind, h₁⟩

/-- The open kernel gets inputs, in order. -/
theorem forM_addKernelInput {handles inputs outputs : List Handle} {name : String} {kernel : Node}
    (hkernel : kernel.payload = .kernel name inputs outputs)
    (h : w.Records id (c.opened kernel grid))
    (hrun : (handles.forM (Trace.addKernelInput id)).runOn w = (.ok (), w')) :
    w'.Records id
      (c.opened { kernel with payload := .kernel name (inputs ++ handles) outputs } grid) := by
  induction handles generalizing kernel inputs w with
  | nil =>
      obtain ⟨-, rfl⟩ := Trace.pure_ok.1 hrun
      rw [List.append_nil, ← hkernel]
      exact h
  | cons handle handles ih =>
      obtain ⟨_, w₁, hfirst, hrest⟩ := Trace.bind_ok.1 hrun
      obtain ⟨scope, hscope, h₁⟩ := h.addKernelInput hfirst
      cases hscope
      rw [Context.opened_modifyNode, Node.addInput, hkernel] at h₁
      have h₂ := ih rfl h₁ hrest
      rwa [List.append_assoc] at h₂

/-- The open kernel gets outputs, in order. -/
theorem forM_addKernelOutput {handles inputs outputs : List Handle} {name : String} {kernel : Node}
    (hkernel : kernel.payload = .kernel name inputs outputs)
    (h : w.Records id (c.opened kernel grid))
    (hrun : (handles.forM (Trace.addKernelOutput id)).runOn w = (.ok (), w')) :
    w'.Records id
      (c.opened { kernel with payload := .kernel name inputs (outputs ++ handles) } grid) := by
  induction handles generalizing kernel outputs w with
  | nil =>
      obtain ⟨-, rfl⟩ := Trace.pure_ok.1 hrun
      rw [List.append_nil, ← hkernel]
      exact h
  | cons handle handles ih =>
      obtain ⟨_, w₁, hfirst, hrest⟩ := Trace.bind_ok.1 hrun
      obtain ⟨scope, hscope, h₁⟩ := h.addKernelOutput hfirst
      cases hscope
      rw [Context.opened_modifyNode, Node.addOutput, hkernel] at h₁
      have h₂ := ih rfl h₁ hrest
      rwa [List.append_assoc] at h₂

/-- The kernel of a launch gets its inputs and outputs, and its index is the next tile symbol. -/
theorem openLaunch {launch : Launch} {block : Value} (h : w.Records id c)
    (hrun : (FrontEnd.openLaunch id launch).runOn w = (.ok block, w')) :
    c.scope = none ∧ block = c.tiles.next.1 ∧
      w'.Records id (c.opened (c.cursor.kernel launch) (c.cursor.grid launch)) := by
  obtain ⟨⟨kernel, grid⟩, w₁, hopen, hfilled⟩ := Trace.bind_ok.1 hrun
  obtain ⟨hscope, hanswer, h₁⟩ := h.openKernel hopen
  obtain ⟨_, w₂, hinputs, hfilled⟩ := Trace.bind_ok.1 hfilled
  obtain ⟨_, w₃, houtputs, hblock⟩ := Trace.bind_ok.1 hfilled
  obtain ⟨hblock, rfl⟩ := Trace.ofExcept_ok.1 hblock
  obtain ⟨rfl, rfl⟩ := Prod.mk.inj hanswer
  cases hblock
  have hempty : (c.nextKernel launch.name launch.template).payload =
      .kernel launch.name [] [] := rfl
  have h₂ := forM_addKernelInput hempty h₁ hinputs
  have hread : ({ c.nextKernel launch.name launch.template with
      payload := .kernel launch.name ([] ++ launch.inputs) [] } : Node).payload =
        .kernel launch.name launch.inputs [] := rfl
  exact ⟨hscope, rfl, forM_addKernelOutput hread h₂ houtputs⟩

end World.Records

/-! ## Bodies -/

/-- In the body of a loop, the computation adds the trees of the meaning to the context. -/
structure Contributes (id : ContextId) (action : Play Unit) (meaning : Node → Meaning) : Prop where
  grown : ∀ {log log' : List Invocation} {w w' : World} {c : Context} {kernel : NodeId}
    {scope : Node}, w.Records id c → c.Within kernel scope → action.Returns log w () log' w' →
    ∃ ts c', meaning scope c.cursor = some (ts, c'.cursor) ∧ w'.Records id c' ∧
      c.Grown (some scope.id) ts c'

namespace Contributes

variable {id : ContextId}

/-- A loop that returns was opened, its body was run, and it was closed. -/
theorem tileLoop_returns {extent : Value} {body : Value → Play Unit} {log log' : List Invocation}
    {w w' : World} (htarget : w.target? = some id)
    (hrun : (FrontEnd.tileLoop extent body).Returns log w () log' w') :
    ∃ loop w₁ index w₂, (Trace.openLoop id (some extent)).runOn w = (.ok loop, w₁) ∧
      loop.induction = .ok index ∧ (body index).Returns log w₁ () log' w₂ ∧
      (Trace.closeLoop id).runOn w₂ = (.ok (), w') := by
  rw [FrontEnd.tileLoop, Play.returns_target, htarget] at hrun
  obtain ⟨loop, _, w₁, hopen, hindexed⟩ := Play.returns_bind.1 hrun
  obtain ⟨rfl, hopened⟩ := Play.returns_lift.1 hopen
  obtain ⟨index, _, _, hindex, hcontinued⟩ := Play.returns_bind.1 hindexed
  obtain ⟨rfl, hknown⟩ := Play.returns_lift.1 hindex
  obtain ⟨hinduction, rfl⟩ := Trace.ofExcept_ok.1 hknown
  obtain ⟨_, _, w₂, hbody, hclose⟩ := Play.returns_bind.1 hcontinued
  obtain ⟨rfl, hclosed⟩ := Play.returns_lift.1 hclose
  exact ⟨loop, _, index, w₂, hopened, hinduction, hbody, hclosed⟩

/-- Nothing adds nothing. -/
theorem done : Contributes id (pure ()) fun _ cursor => some ([], cursor) := by
  constructor
  intro log log' w w' c kernel scope h hscope hrun
  obtain ⟨-, -, rfl⟩ := Play.returns_pure.1 hrun
  exact ⟨[], c, rfl, h, .refl c _⟩

/-- A failure adds nothing because it does not return. -/
theorem fail (e : Error) (meaning : Node → Meaning) : Contributes id (throw e) meaning := by
  constructor
  intro log log' w w' c kernel scope h hscope hrun
  exact absurd hrun Play.not_returns_throw

/-- Listing an invocation adds nothing. -/
theorem logged (change : List Invocation → List Invocation) {action : Play Unit}
    {meaning : Node → Meaning} (h : Contributes id action meaning) :
    Contributes id (do modify change; action) meaning := by
  constructor
  intro log log' w w' c kernel scope hw hscope hrun
  obtain ⟨_, _, _, hmodify, haction⟩ := Play.returns_bind.1 hrun
  obtain ⟨rfl, rfl⟩ := Play.returns_modify.1 hmodify
  exact h.grown hw hscope haction

/-- One computation after another adds the trees of both. -/
theorem andThen {first rest : Play Unit} {before after : Node → Meaning}
    (hfirst : Contributes id first before) (hrest : Contributes id rest after) :
    Contributes id (do first; rest) fun scope cursor => do
      let (ts, next) ← before scope cursor
      let (us, last) ← after scope next
      return (ts ++ us, last) := by
  constructor
  intro log log' w w' c kernel scope h hscope hrun
  obtain ⟨_, log₁, w₁, hrun₁, hrun₂⟩ := Play.returns_bind.1 hrun
  obtain ⟨ts, c₁, hts, h₁, hgrown₁⟩ := hfirst.grown h hscope hrun₁
  obtain ⟨us, c₂, hus, h₂, hgrown₂⟩ := hrest.grown h₁ (hgrown₁.within hscope) hrun₂
  refine ⟨ts ++ us, c₂, ?_, h₂, hgrown₁.trans hgrown₂⟩
  simp [hts, hus]

/-- A loop adds one tree, with the trees of its body below it. -/
theorem tileLoop (extent : Value) {body : Value → Play Unit} {meaning : Value → Node → Meaning}
    (hbody : ∀ index, Contributes id (body index) (meaning index)) :
    Contributes id (FrontEnd.tileLoop extent body) fun scope cursor => do
      let (ts, after) ←
        meaning cursor.coords.next.1 (cursor.loop scope extent) cursor.afterLoop
      return ([.node (cursor.loop scope extent) ts], after) := by
  constructor
  intro log log' w w' c kernel scope h hscope hrun
  obtain ⟨loop, w₁, index, w₂, hopen, hindex, hrun, hclose⟩ := tileLoop_returns h.target hrun
  -- What is opened goes below the current scope of the context, which is the given one.
  obtain ⟨s, outer, hs, houter, rfl, h₁⟩ := h.openLoop hopen
  obtain rfl : ⟨kernel, scope.id⟩ = s := Option.some.inj (hscope.current.symm.trans hs)
  obtain rfl : scope = outer := Option.some.inj (hscope.node.symm.trans houter)
  cases hindex
  obtain ⟨ts, c₂, hts, h₂, hgrown⟩ := (hbody _).grown h₁ (c.within_withLoop kernel scope _) hrun
  -- The body left the loop in place as the current scope, so this is the loop that is closed.
  have hscope₂ := hgrown.within (c.within_withLoop kernel scope _)
  obtain ⟨s, loop, parent, hs, hloop, hparent, h₃⟩ := h₂.closeLoop hclose
  obtain rfl := Option.some.inj (hscope₂.current.symm.trans hs)
  obtain rfl := Option.some.inj (hscope₂.node.symm.trans hloop)
  obtain rfl := Option.some.inj hparent
  refine ⟨_, _, ?_, h₃, hscope.grown_withLoop hgrown⟩
  rw [Context.cursor_withLoop] at hts
  change (meaning c.coords.next.1 (c.nextLoop scope (some extent)) c.cursor.afterLoop).bind _ = _
  rw [hts]
  rfl

/-- A launch that returns was opened, its body was run, and it was closed. -/
theorem launchKernel_returns {launch : Launch} {body : Value → Play Unit}
    {log log' : List Invocation} {w w' : World} (htarget : w.target? = some id)
    (hrun : (FrontEnd.launchKernel launch body).Returns log w () log' w') :
    ∃ block w₁ w₂ kernel, (FrontEnd.openLaunch id launch).runOn w = (.ok block, w₁) ∧
      (body block).Returns log w₁ () log' w₂ ∧
      (Trace.closeKernel id).runOn w₂ = (.ok kernel, w') := by
  rw [FrontEnd.launchKernel, Play.returns_target, htarget] at hrun
  obtain ⟨block, _, w₁, hopen, hopened⟩ := Play.returns_bind.1 hrun
  obtain ⟨rfl, hblock⟩ := Play.returns_lift.1 hopen
  obtain ⟨_, _, w₂, hbody, hclose⟩ := Play.returns_bind.1 hopened
  obtain ⟨kernel, _, _, hclosed, hreturn⟩ := Play.returns_bind.1 hclose
  obtain ⟨rfl, hkernel⟩ := Play.returns_lift.1 hclosed
  obtain ⟨-, rfl, rfl⟩ := Play.returns_pure.1 hreturn
  exact ⟨block, _, w₂, kernel, hblock, hbody, hkernel⟩

/-- A launch in a body does not return. -/
theorem launchKernel (launch : Launch) (body : Value → Play Unit) (rest : Play Unit)
    (meaning : Node → Meaning) :
    Contributes id (do FrontEnd.launchKernel launch body; rest) meaning := by
  constructor
  intro log log' w w' c kernel scope h hscope hrun
  obtain ⟨_, log₁, w₁, hlaunch, -⟩ := Play.returns_bind.1 hrun
  obtain ⟨block, w₂, w₃, node, hopen, -, -⟩ := launchKernel_returns h.target hlaunch
  obtain ⟨hnone, -, -⟩ := h.openLaunch hopen
  cases hnone.symm.trans hscope.current

/-- An invocation adds the step, and after it the trees of its function. -/
theorem invokeStep (d : StepDefinition) (args : List Argument)
    {apply : FunctionId → List Argument → Play Unit} {meaning : Node → Meaning}
    (happly : Contributes id (apply d.function args) meaning) :
    Contributes id (FrontEnd.invokeStep apply d args) fun scope cursor => do
      guard (args.length = d.parameters.length)
      let tag ← d.tagOf args
      let .ok (number, registry) := cursor.registry.bind d d.requestedId | none
      let (ts, after) ← meaning scope (cursor.afterStep registry)
      return (.node (cursor.step scope d number tag args) [] :: ts, after) := by
  constructor
  intro log log' w w' c kernel scope h hscope hrun
  obtain ⟨_, _, w₁, hbefore, hfunction⟩ := Play.returns_bind.1 hrun
  obtain ⟨rfl, hrecord⟩ := Play.returns_lift.1 hbefore
  obtain ⟨hcounted, tag, s, outer, number, registry, htagged, hs, houter, hbind, h₁⟩ :=
    h.beforeStep hrecord
  obtain rfl : ⟨kernel, scope.id⟩ = s := Option.some.inj (hscope.current.symm.trans hs)
  obtain rfl : scope = outer := Option.some.inj (hscope.node.symm.trans houter)
  have hgrown₁ := c.grown_withStep scope d number registry tag args
  obtain ⟨ts, c₂, hts, h₂, hgrown₂⟩ := happly.grown h₁ (hgrown₁.within hscope) hfunction
  refine ⟨_, c₂, ?_, h₂, hgrown₁.trans hgrown₂⟩
  rw [Context.cursor_withStep] at hts
  have hbind' : c.cursor.registry.bind d d.requestedId = .ok (number, registry) := hbind
  have hguard : (guard (args.length = d.parameters.length) : Option Unit) = some () :=
    if_pos hcounted
  rw [hguard]
  simp only [htagged, hbind', hts, bind, Option.bind_some]
  rfl

end Contributes

/-- A program adds what it contributes, if steps do. -/
theorem Program.contributes {id : ContextId} {invoke : StepDefinition → List Argument → Play Unit}
    {meaning : Node → StepDefinition → List Argument → Meaning}
    (hinvoke : ∀ d args, Contributes id (invoke d args) fun scope => meaning scope d args)
    (p : Program) : Contributes id (p.play invoke) fun scope => p.contribution meaning scope := by
  induction p with
  | done => exact .done
  | fail e => exact .fail e _
  | launch kernel body rest _ _ => exact .launchKernel kernel _ _ _
  | loop extent body rest ihbody ihrest =>
      have hloop := (Contributes.tileLoop extent ihbody).andThen ihrest
      simpa [play, contribution, Option.bind_assoc] using hloop
  | call d args rest ih => exact (hinvoke d args).andThen ih

/-- An invocation of a step adds what it contributes. -/
theorem Functions.contributes (functions : Functions) {id : ContextId} (depth : Nat)
    (d : StepDefinition) (args : List Argument) :
    Contributes id (functions.invoke depth d args)
      fun scope => functions.contribution depth scope d args := by
  -- The function of a step may invoke any step, but only one nesting deeper.
  induction depth generalizing d args with
  | zero => exact .fail _ _
  | succ depth ih =>
      exact .invokeStep d args (.logged _ (Program.contributes ih _))

/-! ## Launches one after the other -/

/-- An invocation outside of kernels does not return. -/
theorem Functions.not_returns_invoke (functions : Functions) {id : ContextId} {depth : Nat}
    {d : StepDefinition} {args : List Argument} {log log' : List Invocation} {w w' : World}
    {c : Context} (h : w.Records id c) (hscope : c.scope = none) :
    ¬(functions.invoke depth d args).Returns log w () log' w' := by
  intro hrun
  cases depth with
  | zero => exact Play.not_returns_throw hrun
  | succ depth =>
      obtain ⟨_, _, w₁, hbefore, -⟩ := Play.returns_bind.1 hrun
      obtain ⟨-, hrecord⟩ := Play.returns_lift.1 hbefore
      obtain ⟨-, _, _, _, _, _, -, hs, -⟩ := h.beforeStep hrecord
      cases hscope.symm.trans hs

/-- A program that returns outside of kernels adds its kernels. -/
theorem Functions.play_kernels (functions : Functions) {id : ContextId} {depth : Nat}
    {p : Program} {log log' : List Invocation} {w w' : World} {c : Context}
    (h : w.Records id c) (hscope : c.scope = none)
    (hrun : (p.play (functions.invoke depth)).Returns log w () log' w') :
    ∃ ts c', p.kernels (functions.contribution depth) c.cursor = some (ts, c'.cursor) ∧
      w'.Records id c' ∧ c.Grown none ts c' := by
  induction p generalizing log w c with
  | done =>
      obtain ⟨-, -, rfl⟩ := Play.returns_pure.1 hrun
      exact ⟨[], c, rfl, h, .refl c _⟩
  | fail e => exact absurd hrun Play.not_returns_throw
  | launch launch body rest _ ihrest =>
      obtain ⟨_, log₁, w₁, hlaunch, hrest⟩ := Play.returns_bind.1 hrun
      obtain ⟨block, w₂, w₃, node, hopen, hbody, hclose⟩ :=
        Contributes.launchKernel_returns h.target hlaunch
      obtain ⟨-, rfl, h₂⟩ := h.openLaunch hopen
      obtain ⟨ts, c₃, hts, h₃, hgrown₃⟩ :=
        (Program.contributes (functions.contributes depth) _).grown h₂ (c.within_opened _ launch)
          hbody
      -- Closing the kernel leaves no scope again, which is where the rest starts.
      have hgrown₁ := Context.grown_opened hscope hgrown₃
      obtain ⟨us, c', hus, h', hgrown'⟩ := ihrest (h₃.closeKernel hclose) rfl hrest
      refine ⟨_, c', ?_, h', hgrown₁.trans hgrown'⟩
      rw [Context.cursor_opened] at hts
      have hothers : rest.kernels (functions.contribution depth) c₃.cursor =
          some (us, c'.cursor) := hus
      change (((body c.tiles.next.1).contribution _ _ c.cursor.afterGrid).bind _) = _
      rw [hts, Option.bind_some]
      simp [hothers]
  | loop extent body rest _ _ =>
      obtain ⟨_, log₁, w₁, hloop, -⟩ := Play.returns_bind.1 hrun
      obtain ⟨loop, w₂, index, w₃, hopen, -⟩ := Contributes.tileLoop_returns h.target hloop
      obtain ⟨s, _, hs, -⟩ := h.openLoop hopen
      cases hscope.symm.trans hs
  | call d args rest _ =>
      obtain ⟨_, log₁, w₁, hcall, -⟩ := Play.returns_bind.1 hrun
      exact absurd hcall (functions.not_returns_invoke h hscope)

/-! ## Records of programs -/

namespace Context

/-- A context without a current scope has no open kernel. -/
theorem IsArranged.scope_eq_none {c : Context} (h : c.IsArranged) (hidle : c.state = .idle) :
    c.scope = none := by
  cases hscope : c.scope with
  | none => rfl
  | some scope =>
      obtain ⟨f, hf, -⟩ := (Arranged.scope h scope hscope).loop
      obtain ⟨loop, hloop, -⟩ := places_eq_some.1 hf
      have hcurrent : c.currentLoop? = some loop :=
        currentLoop?_eq_some.2 ⟨scope, hscope, hloop⟩
      rw [state, hcurrent] at hidle
      dsimp only at hidle
      split at hidle <;> cases hidle

/-- A context without an open kernel is idle. -/
theorem state_eq_idle {c : Context} (h : c.scope = none) : c.state = .idle := by
  have hcurrent : c.currentLoop? = none := by
    rw [currentLoop?, h]
    rfl
  rw [state, hcurrent]

/-- The trees of a context that has grown by trees without a parent. -/
theorem Grown.forest {c c' : Context} {ts : List Tree} (h : c.Grown none ts c') :
    c'.forest = c.forest ++ ts := by
  have hts : Tree.forest (forestToList ts) = ts := by
    have hread := h.numbered.forest_append nofun [] nofun
    rwa [List.append_nil, show Tree.forest [] = [] from rfl, List.append_nil] at hread
  have hroots : ∀ t ∈ Tree.forest (forestToList ts), t.root.parent = none := by
    rw [hts]
    exact h.numbered.root_parent
  rw [Context.forest, h.nodes, forest_append hroots, hts]
  rfl

end Context

namespace World

/-- The world while a guard records into a context. -/
def recordingInto (w : World) (id : ContextId) : World :=
  { w with thread := { w.thread.enter id with mode := .recording } }

/-- A guard records into its context unless recording is disabled. -/
theorem records_recordingInto {w : World} {id : ContextId} {c : Context}
    (hcontext : w.context? id = some c) (henabled : w.disable.has .recording = false) :
    (w.recordingInto id).Records id c := by
  refine ⟨⟨c.owner, hcontext⟩, ?_⟩
  simp [target?, isRecording, recordingInto, Thread.current, Thread.enter, henabled]

end World

namespace Functions

variable (functions : Functions) {depth : Nat} {p : Program} {id : ContextId} {c : Context}
  {w w' : World} {invocations : List Invocation}

/-- Recording runs the program while the guard is there, and keeps the contexts as it leaves
them. -/
theorem record_ok (hrun : (functions.record depth id p).runOn w = (.ok invocations, w')) :
    ∃ w₁, (p.play (functions.invoke depth)).Returns [] (w.recordingInto id) () invocations w₁ ∧
      w'.contexts = w₁.contexts := by
  obtain ⟨guard, w₁, hguard, hguarded⟩ := Trace.bind_ok.1 hrun
  cases hguard
  obtain ⟨result, w₂, hobserved, hleft⟩ := Trace.bind_ok.1 hguarded
  rw [Trace.observing_ok] at hobserved
  obtain ⟨_, w₃, hleave, hresult⟩ := Trace.bind_ok.1 hleft
  obtain ⟨rfl, rfl⟩ := Trace.ofExcept_ok.1 hresult
  cases hleave
  obtain ⟨⟨_, log⟩, w₄, hplay, hreturn⟩ := Trace.bind_ok.1 hobserved
  obtain ⟨rfl, rfl⟩ := Trace.pure_ok.1 hreturn
  exact ⟨w₂, hplay, rfl⟩

/-- Recording into an idle context adds the kernels of the program. -/
theorem record_grown (hcontext : w.context? id = some c) (hscope : c.scope = none)
    (henabled : w.disable.has .recording = false)
    (hrun : (functions.record depth id p).runOn w = (.ok invocations, w')) :
    ∃ ts c', p.kernels (functions.contribution depth) c.cursor = some (ts, c'.cursor) ∧
      w'.context? id = some c' ∧ c.Grown none ts c' := by
  obtain ⟨w₁, hplay, hcontexts⟩ := functions.record_ok hrun
  obtain ⟨ts, c₁, hts, h₁, hgrown⟩ :=
    functions.play_kernels (World.records_recordingInto hcontext henabled) hscope hplay
  obtain ⟨owner, hcontext₁⟩ := h₁.context
  refine ⟨ts, { c₁ with owner := owner }, hts, ?_, ⟨hgrown.nodes, hgrown.scope, hgrown.numbered⟩⟩
  rw [World.context?, hcontexts]
  exact hcontext₁

/-- When a program is recorded into an idle context and the run returns, the kernels that it has
added are the trees that the program means, and the context is idle again. -/
theorem record_kernels {number : ContextId} {history : History}
    (hreached : c = (Context.fresh number).after history) (hcontext : w.context? id = some c)
    (hidle : c.state = .idle) (henabled : w.disable.has .recording = false)
    (hrun : (functions.record depth id p).runOn w = (.ok invocations, w')) :
    ∃ trees last c', p.kernels (functions.contribution depth) c.cursor = some (trees, last) ∧
      w'.context? id = some c' ∧ c'.forest = c.forest ++ trees ∧ c'.state = .idle := by
  have harranged : c.IsArranged := hreached ▸ Context.isArranged_after number history
  have hscope := harranged.scope_eq_none hidle
  obtain ⟨trees, c', htrees, hcontext', hgrown⟩ :=
    functions.record_grown hcontext hscope henabled hrun
  exact ⟨trees, c'.cursor, c', htrees, hcontext', hgrown.forest,
    Context.state_eq_idle (hgrown.scope.trans hscope)⟩

end Functions

/-- A step that loads what an index locates. -/
def loadStep : StepDefinition where
  declaration := 0
  name := "load"
  function := 0
  parameters := ["at", "from"]
  tagSource := .parameter "at"
  outputs := ["tile"]
  requestedId := none
  tag_mem := by simp

/-- A launch whose blocks load tiles. -/
def loadProgram : Program :=
  .launch ⟨"copy", .concrete 4, .unbound, ["x"], ["y"]⟩
    (fun _ => .loop (.concrete 2)
      (fun index => .call loadStep [.coordinate (.bound index), .handle "x"] .done) .done)
    .done

/-- The function of the step loops over three words. -/
def loadFunctions : Functions :=
  fun _ _ => .loop (.concrete 3) (fun _ => .done) .done

/-- A world with a fresh context. -/
def freshWorld : World :=
  { contexts := #[some (.fresh 0)], disk := default }

/-- The launch is recorded into the fresh context. -/
theorem record_kernels_load :
    ∃ invocations w', (loadFunctions.record 1 0 loadProgram).runOn freshWorld =
        (.ok invocations, w') ∧
      ∃ trees last c', loadProgram.kernels (loadFunctions.contribution 1)
          (Context.fresh 0).cursor = some (trees, last) ∧
        w'.context? 0 = some c' ∧ c'.forest = (Context.fresh 0).forest ++ trees ∧
        c'.state = .idle := by
  have hok : ((loadFunctions.record 1 0 loadProgram).runOn freshWorld).1.isOk = true := by
    decide +kernel
  obtain ⟨invocations, w', hrun⟩ := Trace.exists_ok hok
  have hreached : Context.fresh 0 = (Context.fresh 0).after [] := rfl
  exact ⟨invocations, w', hrun, loadFunctions.record_kernels hreached rfl rfl rfl hrun⟩

end TileTrace
