import Mathlib.Logic.Function.Basic
import TileTrace.Proofs.Ancestors
import TileTrace.Proofs.StepMaps
import TileTrace.Proofs.Stepwise

/-!
# Records with stored links

A context finds the children of a node by the parents of the other nodes, its kernels
by their kind, and the grid loop of a kernel by its number. A `Linked` record stores
all of this: every kernel its grid loop, every loop its body, the record its kernels
and, in two maps, the numbers of definitions. The operations write the links one after
the other, the parent of a node after the node, and the body after the parent.

`Linked.Represents` says when a record with links belongs to a context.
`Represents.perform` is the step lemma: an operation has the same answer on both, and
they belong together afterwards. `Linked.history_linked` is the main theorem. After
any history the links lead exactly to the nodes whose parents lead back.
-/

namespace TileTrace

/-- A context that stores its links. -/
structure Linked where
  id : ContextId
  nodes : Array Node := #[]
  /-- The grid loop of a kernel. -/
  gridLoop : NodeId → Option NodeId := fun _ => none
  /-- The nodes in a loop. -/
  body : NodeId → List NodeId := fun _ => []
  kernels : List NodeId := []
  /-- The open kernel. -/
  kernel : Option NodeId := none
  /-- The current loop. -/
  loop : Option NodeId := none
  tiles : SymbolSource := ⟨"tile", 0⟩
  coords : SymbolSource := ⟨"coord", 0⟩
  maps : StepMaps := {}
  owner : Option ThreadId := none

namespace Linked

/-- What is read by following parents only. -/
def bare (l : Linked) : Context where
  id := l.id
  nodes := l.nodes
  scope := do return ⟨← l.kernel, ← l.loop⟩

/-- The children of a node: the grid loop of a kernel, and the body of a loop. -/
def children (l : Linked) (id : NodeId) : List NodeId :=
  match (l.nodes[id]?).map Node.payload with
  | some (.kernel _ _ _) => (l.gridLoop id).toList
  | some (.loop _ _ _) => l.body id
  | _ => []

/-! ## Writing links -/

/-- Give a new node the next number. It has no parent yet. -/
def register (l : Linked) (tag : Coordinate) (payload : Payload) : NodeId × Linked :=
  (l.nodes.size, { l with nodes := l.nodes.push ⟨l.nodes.size, tag, none, true, payload⟩ })

/-- Change a node. -/
def modifyNode (l : Linked) (id : NodeId) (change : Node → Node) : Linked :=
  { l with nodes := l.nodes.modify id change }

/-- Link a node to its parent. -/
def setParent (l : Linked) (id parent : NodeId) : Linked :=
  l.modifyNode id fun n => { n with parent := some parent }

/-- Link a kernel to its grid loop. -/
def setGridLoop (l : Linked) (kernel grid : NodeId) : Linked :=
  { l with gridLoop := Function.update l.gridLoop kernel (some grid) }

/-- Link a loop to one more node in it. -/
def addToBody (l : Linked) (loop id : NodeId) : Linked :=
  { l with body := Function.update l.body loop (l.body loop ++ [id]) }

/-- Put a new node into the current loop. -/
def append (l : Linked) (tag : Coordinate) (payload : Payload) :
    Except Error (NodeId × Linked) :=
  match l.loop with
  | some outer =>
      let (id, l) := l.register tag payload
      .ok (id, (l.setParent id outer).addToBody outer id)
  | none => .error (.noScopeToAppend (payload.text ++ " [" ++ tag.text ++ "] id=-1"))

/-- The node that was pushed last is changed. -/
theorem modify_push (nodes : Array Node) (n : Node) (change : Node → Node) :
    (nodes.push n).modify nodes.size change = nodes.push (change n) := by
  apply Array.ext_getElem?
  intro i
  rw [Array.getElem?_modify, Array.getElem?_push, Array.getElem?_push]
  by_cases hi : i = nodes.size
  · simp [hi]
  · rw [if_neg (Ne.symm hi), if_neg hi, if_neg hi]

/-- What is written for a new node in the current loop. -/
theorem append_eq {l : Linked} {outer : NodeId} (h : l.loop = some outer) (tag : Coordinate)
    (payload : Payload) :
    l.append tag payload = .ok (l.nodes.size, { l with
      nodes := l.nodes.push ⟨l.nodes.size, tag, some outer, true, payload⟩
      body := Function.update l.body outer (l.body outer ++ [l.nodes.size]) }) := by
  simp [append, h, register, setParent, modifyNode, addToBody, modify_push]

/-! ## Operations -/

/-- Open a kernel and its grid loop. -/
def openKernel (l : Linked) (name : String) (template : Coordinate) (extent : Option Value) :
    Except Error Linked :=
  match l.kernel with
  | some kernel => .error (.kernelInsideKernel (l.bare.kernelName kernel) name)
  | none =>
      let (induction, tiles) := l.tiles.next
      let (kernel, l) := { l with tiles := tiles }.register template (.kernel name [] [])
      let (grid, l) := l.register (template.bind (.bound induction)) (.loop .grid induction extent)
      let l := { l.setParent grid kernel with loop := some grid }.setGridLoop kernel grid
      .ok { l with kernel := some kernel, kernels := l.kernels ++ [kernel] }

/-- What is written for a new kernel. -/
theorem openKernel_eq {l : Linked} (h : l.kernel = none) (name : String) (template : Coordinate)
    (extent : Option Value) :
    l.openKernel name template extent = .ok { l with
      nodes := (l.nodes.push ⟨l.nodes.size, template, none, true, .kernel name [] []⟩).push
        ⟨l.nodes.size + 1, template.bind (.bound l.tiles.next.1), some l.nodes.size, true,
          .loop .grid l.tiles.next.1 extent⟩
      gridLoop := Function.update l.gridLoop l.nodes.size (some (l.nodes.size + 1))
      kernels := l.kernels ++ [l.nodes.size]
      kernel := some l.nodes.size
      loop := some (l.nodes.size + 1)
      tiles := l.tiles.next.2 } := by
  rw [openKernel, h]
  simp only [register, setParent, setGridLoop, modifyNode, modify_push]
  rw [Array.size_push]

/-- Open a loop in the current one. -/
def openLoop (l : Linked) (extent : Option Value) : Except Error Linked :=
  match l.kernel with
  | none => .error .loopOutsideKernel
  | some _ => do
      let (induction, coords) := l.coords.next
      let tag ← l.bare.currentTag
      let (loop, l) ← { l with coords := coords }.append (tag.bind (.bound induction))
        (.loop .nested induction extent)
      return { l with loop := some loop }

/-- A loop is opened by putting it into the current one. -/
theorem openLoop_eq {l l' : Linked} {kernel loop : NodeId} {tag : Coordinate}
    {extent : Option Value} (hkernel : l.kernel = some kernel) (htag : l.bare.currentTag = .ok tag)
    (happend : { l with coords := l.coords.next.2 }.append (tag.bind (.bound l.coords.next.1))
      (.loop .nested l.coords.next.1 extent) = .ok (loop, l')) :
    l.openLoop extent = .ok { l' with loop := some loop } := by
  rw [hkernel] at happend
  rw [openLoop, hkernel]
  simp only [htag, bind, Except.bind, happend, pure, Except.pure]

/-- Close the current loop, which is not a grid loop. -/
def closeLoop (l : Linked) : Except Error Linked :=
  match l.kernel, l.bare.currentLoop? with
  | some kernel, some loop =>
      if loop.isGridLoop then .error (.closeLoopOnGrid (l.bare.kernelName kernel))
      else match loop.parent with
        | none => .error (.loopWithoutScope loop.text)
        | some outer => .ok { l with loop := some outer }
  | _, _ => .error .noLoopToClose

/-- Record an invocation of a step in the current loop. -/
def recordStep (l : Linked) (origin : StepDefinition) (tag : Coordinate)
    (requested : Option StepId) (inputs : List Handle) : Except Error Linked :=
  match l.kernel with
  | none => .error (.stepOutsideKernel origin.name)
  | some _ => do
      let (number, maps) ← l.maps.bind origin requested
      let (_, l) ← { l with maps := maps }.append tag (.step origin number inputs origin.outputs)
      return l

/-- A step is recorded by binding its definition and putting it into the current loop. -/
theorem recordStep_eq {l l' : Linked} {kernel id : NodeId} {origin : StepDefinition}
    {tag : Coordinate} {requested : Option StepId} {inputs : List Handle} {number : StepId}
    {maps : StepMaps} (hkernel : l.kernel = some kernel)
    (hbind : l.maps.bind origin requested = .ok (number, maps))
    (happend : { l with maps := maps }.append tag (.step origin number inputs origin.outputs) =
      .ok (id, l')) :
    l.recordStep origin tag requested inputs = .ok l' := by
  rw [hkernel] at happend
  rw [recordStep, hkernel]
  simp only [bind, Except.bind, hbind, happend, pure, Except.pure]

/-- Close the open kernel from the grid loop it is linked to. -/
def closeKernel (l : Linked) : Except Error Linked :=
  match l.kernel, l.bare.currentLoop? with
  | some kernel, some loop =>
      if l.loop = l.gridLoop kernel then .ok { l with kernel := none, loop := none }
      else .error (.closeKernelInLoop (l.bare.kernelName kernel) loop.text)
  | _, _ => .error .noKernelToClose

/-- Change the open kernel. -/
def changeKernel (l : Linked) (outside : Error) (change : Node → Node) : Except Error Linked :=
  match l.kernel with
  | some kernel => .ok (l.modifyNode kernel change)
  | none => .error outside

/-- Show or hide a node of the open kernel. -/
def setVisualize (l : Linked) (ref : NodeRef) (visualize : Bool) : Except Error Linked :=
  if l.bare.inOpenKernel ref then
    .ok (l.modifyNode ref.node.id fun n => { n with visualize := visualize })
  else .error (.notInOpenKernel ref.node.text)

/-- The record as a thread takes it over. -/
def claimedBy (l : Linked) (thread : ThreadId) : Linked :=
  { l with owner := some thread }

/-- Carry out an operation for the owner, or for the first thread. -/
def claimed (l : Linked) (thread : ThreadId) (operation : Linked → Except Error Linked) :
    Except Error Unit × Linked :=
  if l.owner = none ∨ l.owner = some thread then
    match operation (l.claimedBy thread) with
    | .ok changed => (.ok (), changed)
    | .error e => (.error e, l.claimedBy thread)
  else (.error .foreignThread, l)

/-- Carry out an operation for a thread. -/
def perform (l : Linked) (operation : Operation) (thread : ThreadId) :
    Except Error Unit × Linked :=
  match operation with
  | .openKernel name template extent => l.claimed thread (·.openKernel name template extent)
  | .openLoop extent => l.claimed thread (·.openLoop extent)
  | .closeLoop => l.claimed thread closeLoop
  | .recordStep origin tag requested inputs =>
      l.claimed thread (·.recordStep origin tag requested inputs)
  | .closeKernel => l.claimed thread closeKernel
  | .addKernelInput handle =>
      l.claimed thread (·.changeKernel (.noKernelForInput handle) (Node.addInput handle))
  | .addKernelOutput handle =>
      l.claimed thread (·.changeKernel (.noKernelForOutput handle) (Node.addOutput handle))
  | .setVisualize none _ => (.error .nullModified, l)
  | .setVisualize (some ref) visualize => l.claimed thread (·.setVisualize ref visualize)
  | .register none => (.error .nullRegistered, l)
  | .register (some ref) => l.claimed thread fun _ => .error (.alreadyRegistered ref.node.text)

/-- A record before its first operation. -/
def fresh (id : ContextId) : Linked :=
  { id := id }

/-- The record after a history. -/
def after (l : Linked) (history : History) : Linked :=
  history.foldl (fun l (thread, operation) => (l.perform operation thread).2) l

end Linked

/-! ## What a context finds -/

namespace Context

/-- The place of a node that is pushed. -/
theorem places_push (c : Context) (tag : Coordinate) (parent : Option NodeId)
    (payload : Payload) :
    (c.push tag parent payload).2.places =
      c.places ++ [(c.push tag parent payload).1.place] := by
  simp [places, push]

/-- No node is below one that is not there yet. -/
theorem IsArranged.children_of_size_le {c : Context} (h : c.IsArranged) {p : NodeId}
    (hp : c.size ≤ p) : c.children p = [] := by
  rw [List.eq_nil_iff_forall_not_mem]
  intro q hq
  obtain ⟨n, hn, hparent⟩ := h.mem_children.1 hq
  have hlt : p < q := h.lt_of_parent hn hparent
  have hq : q < c.size := (Array.getElem?_eq_some_iff.1 hn).1
  exact Nat.not_lt.2 hp (Nat.lt_trans hlt hq)

/-- The current loop is the loop of the scope. -/
theorem IsArranged.exists_currentLoop_id {c : Context} (h : c.IsArranged) {scope : Scope}
    (hscope : c.scope = some scope) :
    ∃ outer, c.currentLoop? = some outer ∧ outer.id = scope.loop := by
  obtain ⟨outer, hloop⟩ := h.exists_currentLoop hscope
  obtain ⟨scope', hscope', houter⟩ := currentLoop?_eq_some.1 hloop
  obtain rfl := Option.some.inj (hscope.symm.trans hscope')
  exact ⟨outer, hloop, h.id_eq houter⟩

end Context

namespace Linked

/-! ## Links and parents -/

/-- A record with links belongs to a context: it has the same nodes, and its links lead to what
the context finds. -/
structure Represents (l : Linked) (c : Context) : Prop where
  id : l.id = c.id
  nodes : l.nodes = c.nodes
  kernel : l.kernel = c.scope.map (·.kernel)
  loop : l.loop = c.scope.map (·.loop)
  tiles : l.tiles = c.tiles
  coords : l.coords = c.coords
  owner : l.owner = c.owner
  kernels : l.kernels = c.kernels
  /-- A kernel is linked to the node after it, and no other node to a grid loop. -/
  gridLoop : ∀ k, l.gridLoop k = if k ∈ c.kernels then some (Context.gridOf k) else none
  /-- What hangs below a node is linked from it, from a kernel in one way and from a loop in the
  other. -/
  links : ∀ p, (l.gridLoop p).toList ++ l.body p = c.children p
  maps : l.maps.Holds c.registry

/-- The results of an operation on a record with links and on a context belong together. -/
def Tracks {α : Type} (linked : Except Error Linked) : Except Error (α × Context) → Prop
  | .ok (_, c) => ∃ l, linked = .ok l ∧ l.Represents c
  | .error e => linked = .error e

/-- The answers are the same, and the record and the context belong together. -/
def Agrees (linked : Except Error Unit × Linked) (attempt : Context.Attempt Unit) : Prop :=
  linked.1 = attempt.1 ∧ linked.2.Represents attempt.2

namespace Represents

variable {l : Linked} {c : Context} {thread : ThreadId}

/-- Fresh records belong to fresh contexts. -/
theorem fresh (id : ContextId) : (Linked.fresh id).Represents (Context.fresh id) where
  id := rfl
  nodes := rfl
  kernel := rfl
  loop := rfl
  tiles := rfl
  coords := rfl
  owner := rfl
  kernels := rfl
  gridLoop _ := rfl
  links _ := rfl
  maps := ⟨fun _ => rfl, fun _ => rfl, rfl⟩

/-- What is read by following parents is the same. -/
theorem bare_eq (h : l.Represents c) :
    l.bare = { id := c.id, nodes := c.nodes, scope := c.scope } := by
  rw [bare, h.id, h.nodes, h.kernel, h.loop]
  cases c.scope <;> rfl

theorem kernelName_eq (h : l.Represents c) (kernel : NodeId) :
    l.bare.kernelName kernel = c.kernelName kernel := by
  rw [h.bare_eq]
  rfl

theorem currentLoop?_eq (h : l.Represents c) : l.bare.currentLoop? = c.currentLoop? := by
  rw [h.bare_eq]
  rfl

theorem inOpenKernel_eq (h : l.Represents c) (ref : NodeRef) :
    l.bare.inOpenKernel ref = c.inOpenKernel ref := by
  rw [h.bare_eq]
  rfl

/-- A record that is taken over belongs to the context that is taken over. -/
theorem claimedBy (h : l.Represents c) (thread : ThreadId) :
    (l.claimedBy thread).Represents (c.claimedBy thread) :=
  { h with owner := rfl }

/-- An operation with the claim agrees if it does after the claim. -/
theorem claimed {α : Type} {P : Context → Prop} (h : l.Represents c)
    (hclaimed : P (c.claimedBy thread)) {linked : Linked → Except Error Linked}
    {operation : Context → Except Error (α × Context)}
    (htracks : ∀ l c, Represents l c → P c → Tracks (linked l) (operation c)) :
    Agrees (l.claimed thread linked)
      (Operation.perform.finished (c.claimed thread operation)) := by
  have hresults := htracks _ _ (h.claimedBy thread) hclaimed
  rw [Context.finished_claimed, Linked.claimed, h.owner]
  split_ifs
  · cases hresult : operation (c.claimedBy thread) with
    | ok answer =>
        rw [hresult] at hresults
        obtain ⟨l', hlinked, hl'⟩ := hresults
        rw [hlinked]
        exact ⟨rfl, hl'⟩
    | error e =>
        rw [hresult] at hresults
        rw [show linked (l.claimedBy thread) = .error e from hresults]
        exact ⟨rfl, h.claimedBy thread⟩
  · exact ⟨rfl, h⟩

/-! ## Changes of nodes -/

/-- Changing a node in another way than its place keeps the links. -/
theorem modifyNode (h : l.Represents c) (id : NodeId) {change : Node → Node}
    (hchange : ∀ n, (change n).place = n.place) :
    (l.modifyNode id change).Represents (c.modifyNode id change) := by
  have hplaces := c.places_modifyNode id hchange
  have hkernels := Context.kernels_of_places hplaces
  exact { h with
    nodes := by rw [Linked.modifyNode, h.nodes]; rfl
    kernels := by rw [hkernels]; exact h.kernels
    gridLoop := fun k => by rw [hkernels]; exact h.gridLoop k
    links := fun p => (h.links p).trans (Context.children_of_places hplaces p).symm }

/-- A node that is put into the current loop is linked to the loop and back. -/
theorem append (h : l.Represents c) {scope : Scope} (hscope : c.scope = some scope)
    (tag : Coordinate) (payload : Payload)
    (hkernel : (c.push tag (some scope.loop) payload).1.kind ≠ .kernel) :
    ∃ l', l.append tag payload = .ok (c.size, l') ∧
      l'.Represents (c.push tag (some scope.loop) payload).2 := by
  have hsize : l.nodes.size = c.size := by rw [h.nodes]; rfl
  have hplaces := c.places_push tag (some scope.loop) payload
  have hkernels : (c.push tag (some scope.loop) payload).2.kernels = c.kernels := by
    rw [Context.kernels_of_append hplaces]
    simp [Node.place, hkernel]
  have hloop : l.loop = some scope.loop := by rw [h.loop, hscope]; rfl
  refine ⟨_, by rw [append_eq hloop, hsize], ?_⟩
  refine { h with
    nodes := by rw [h.nodes]; rfl
    kernels := by rw [hkernels, h.kernels]
    gridLoop := fun k => by rw [hkernels, h.gridLoop]
    links := fun p => ?_ }
  rw [Context.children_of_append hplaces, ← h.links p, List.append_assoc]
  by_cases hp : p = scope.loop
  · simp [hp, Node.place, Context.push]
  · simp [hp, Ne.symm hp, Node.place, Context.push]

/-! ## Operations -/

/-- A kernel and its grid loop are linked to each other. -/
theorem withKernel (h : l.Represents c) (hc : c.IsArranged) (hscope : c.scope = none)
    (name : String) (template : Coordinate) (extent : Option Value) :
    ∃ l', l.openKernel name template extent = .ok l' ∧
      l'.Represents (c.withKernel name template extent) := by
  have hsize : l.nodes.size = c.size := by rw [h.nodes]; rfl
  have hplaces := c.places_withKernel name template extent
  rw [Context.length_places] at hplaces
  have hkernels : (c.withKernel name template extent).kernels = c.kernels ++ [c.size] :=
    Context.kernels_of_append hplaces
  refine ⟨_, openKernel_eq (by rw [h.kernel, hscope]; rfl) name template extent, ?_⟩
  rw [hsize, h.nodes, h.tiles]
  refine { h with
    nodes := rfl
    kernel := rfl
    loop := rfl
    tiles := rfl
    kernels := by rw [hkernels, h.kernels]
    gridLoop := fun k => ?_
    links := fun p => ?_ }
  · rw [hkernels]
    by_cases hk : k = c.size
    · simp [hk, Context.gridOf]
    · simp [hk, h.gridLoop]
  · rw [Context.children_of_append hplaces, ← h.links p]
    by_cases hp : p = c.size
    · -- Nothing hangs below the kernel yet.
      subst hp
      have hnone := h.links c.size
      rw [hc.children_of_size_le (Nat.le_refl _), List.append_eq_nil_iff] at hnone
      simp [hnone]
    · simp [hp, Ne.symm hp]

section

variable {name : String} {template : Coordinate} {extent : Option Value}

/-- A kernel is opened. -/
theorem openKernel (h : l.Represents c) (hc : c.IsArranged) :
    Agrees (l.perform (.openKernel name template extent) thread)
      ((Operation.openKernel name template extent).perform thread c) := by
  refine h.claimed (P := Context.IsArranged) hc fun l c h hc => ?_
  cases hscope : c.scope with
  | none =>
      obtain ⟨l', hl', h'⟩ := h.withKernel hc hscope name template extent
      refine ⟨l', hl', ?_⟩
      simpa [Context.withKernel, Context.push, Context.nextKernel, Context.nextGrid, Context.size,
        SymbolSource.next] using h'
  | some scope => simp [Tracks, Linked.openKernel, h.kernel, h.kernelName_eq, hscope]

/-- A loop is opened. -/
theorem openLoop (h : l.Represents c) (hc : c.IsArranged) :
    Agrees (l.perform (.openLoop extent) thread)
      ((Operation.openLoop extent).perform thread c) := by
  refine h.claimed (P := Context.IsArranged) hc fun l c h hc => ?_
  cases hscope : c.scope with
  | none => simp [Tracks, Linked.openLoop, h.kernel, hscope]
  | some scope =>
      obtain ⟨outer, hloop, houter⟩ := hc.exists_currentLoop_id hscope
      have hcoords : Represents { l with coords := l.coords.next.2 }
          { c with coords := c.coords.next.2 } := { h with coords := by rw [h.coords] }
      obtain ⟨l', hl', h'⟩ := hcoords.append hscope (outer.tag.bind (.bound c.coords.next.1))
        (.loop .nested c.coords.next.1 extent) nofun
      have htag : l.bare.currentTag = .ok outer.tag := by
        rw [Context.currentTag, h.currentLoop?_eq, hloop]
      have hkernel : l.kernel = some scope.kernel := by rw [h.kernel, hscope]; rfl
      rw [← h.coords] at hl'
      simp only [openLoop_eq hkernel htag hl', Context.currentTag, Context.append, hloop,
        houter, bind, Except.bind, pure, Except.pure]
      have hsame : l'.kernel = some scope.kernel :=
        h'.kernel.trans (congrArg (Option.map (·.kernel)) hscope)
      exact ⟨_, rfl, { h' with kernel := hsame, loop := rfl }⟩

/-- A step is recorded. -/
theorem recordStep (h : l.Represents c) (hc : c.IsArranged) (hregistry : c.registry.Consistent)
    {origin : StepDefinition} {tag : Coordinate} {requested : Option StepId}
    {inputs : List Handle} :
    Agrees (l.perform (.recordStep origin tag requested inputs) thread)
      ((Operation.recordStep origin tag requested inputs).perform thread c) := by
  refine h.claimed (P := fun c => c.IsArranged ∧ c.registry.Consistent) ⟨hc, hregistry⟩
    fun l c h ⟨hc, hregistry⟩ => ?_
  cases hscope : c.scope with
  | none => simp [Tracks, Linked.recordStep, h.kernel, hscope]
  | some scope =>
      obtain ⟨outer, hloop, houter⟩ := hc.exists_currentLoop_id hscope
      have hkernel : l.kernel = some scope.kernel := by rw [h.kernel, hscope]; rfl
      have hbind := h.maps.bind hregistry origin requested
      cases hresult : c.registry.bind origin requested with
      | error e =>
          rw [hresult] at hbind
          simp [Tracks, Linked.recordStep, hkernel, hbind, bind, Except.bind]
      | ok bound =>
          obtain ⟨number, registry⟩ := bound
          rw [hresult] at hbind
          obtain ⟨maps, hbind, hmaps⟩ := hbind
          have hbound : Represents { l with maps := maps } { c with registry := registry } :=
            { h with maps := hmaps }
          obtain ⟨l', hl', h'⟩ := hbound.append hscope tag
            (.step origin number inputs origin.outputs) nofun
          simp only [bind, Except.bind, Context.append, hloop, houter, pure, Except.pure]
          exact ⟨l', recordStep_eq hkernel hbind hl', h'⟩

/-- A loop is closed. -/
theorem closeLoop (h : l.Represents c) (hc : c.IsArranged) :
    Agrees (l.perform .closeLoop thread) (Operation.closeLoop.perform thread c) := by
  refine h.claimed (P := Context.IsArranged) hc fun l c h hc => ?_
  rw [Linked.closeLoop, h.currentLoop?_eq, h.kernel]
  cases hscope : c.scope with
  | none => rfl
  | some scope =>
      obtain ⟨loop, hloop⟩ := hc.exists_currentLoop hscope
      rw [hloop]
      cases hgrid : loop.isGridLoop with
      | true => simp [Tracks, h.kernelName_eq, hgrid]
      | false =>
          cases hparent : loop.parent with
          | none => simp [Tracks, hgrid, hparent]
          | some outer =>
              simp only [Option.map_some, hgrid, hparent]
              exact ⟨_, rfl, { h with kernel := rfl, loop := rfl }⟩

/-- A kernel is closed. -/
theorem closeKernel (h : l.Represents c) (hc : c.IsArranged) :
    Agrees (l.perform .closeKernel thread) (Operation.closeKernel.perform thread c) := by
  refine h.claimed (P := Context.IsArranged) hc fun l c h hc => ?_
  rw [Linked.closeKernel, h.currentLoop?_eq, h.kernel]
  cases hscope : c.scope with
  | none => rfl
  | some scope =>
      obtain ⟨loop, hloop⟩ := hc.exists_currentLoop hscope
      obtain ⟨kernel, hkernel, hisKernel⟩ := hc.exists_openKernel hscope
      have hgrid : l.gridLoop scope.kernel = some (Context.gridOf scope.kernel) := by
        rw [h.gridLoop, if_pos (hc.mem_kernels.2 ⟨kernel, hkernel, hisKernel⟩)]
      rw [hloop]
      simp only [Option.map_some, h.loop, hscope, hgrid, hkernel, Option.some.injEq]
      by_cases hclose : scope.loop = Context.gridOf scope.kernel
      · simp only [if_pos hclose]
        exact ⟨_, rfl, { h with kernel := rfl, loop := rfl }⟩
      · simp [Tracks, hclose, h.kernelName_eq]

end

/-- The open kernel is changed in another way than its place. -/
theorem changeKernel (h : l.Represents c) (hc : c.IsArranged) (outside : Error)
    {change : Node → Node} (hchange : ∀ n, (change n).place = n.place) :
    Agrees (l.claimed thread (·.changeKernel outside change))
      (c.claimed thread fun c =>
        match c.scope with
        | some scope => .ok ((), c.modifyNode scope.kernel change)
        | none => .error outside) := by
  rw [← Operation.finished_eq (c.claimed thread _)]
  refine h.claimed (P := Context.IsArranged) hc fun l c h hc => ?_
  rw [Linked.changeKernel, h.kernel]
  cases c.scope with
  | none => rfl
  | some scope => exact ⟨_, rfl, h.modifyNode scope.kernel hchange⟩

/-- A node is shown or hidden. -/
theorem setVisualize (h : l.Represents c) (hc : c.IsArranged) (ref : NodeRef)
    (visualize : Bool) :
    Agrees (l.perform (.setVisualize (some ref) visualize) thread)
      ((Operation.setVisualize (some ref) visualize).perform thread c) := by
  rw [← Operation.finished_eq (Operation.perform _ thread c)]
  refine h.claimed (P := Context.IsArranged) hc fun l c h hc => ?_
  rw [Linked.setVisualize, h.inOpenKernel_eq]
  cases c.inOpenKernel ref with
  | false => rfl
  | true => exact ⟨_, rfl, h.modifyNode ref.node.id fun _ => rfl⟩

/-- Every operation has the same answer on a record with links and on the context it belongs to,
and they belong together afterwards. -/
theorem perform (h : l.Represents c) (hc : c.IsArranged) (hregistry : c.registry.Consistent)
    (operation : Operation) (thread : ThreadId) :
    Agrees (l.perform operation thread) (operation.perform thread c) := by
  cases operation with
  | openKernel name template extent => exact h.openKernel hc
  | openLoop extent => exact h.openLoop hc
  | closeLoop => exact h.closeLoop hc
  | recordStep origin tag requested inputs => exact h.recordStep hc hregistry
  | closeKernel => exact h.closeKernel hc
  | addKernelInput handle => exact h.changeKernel hc _ (Node.place_addInput handle)
  | addKernelOutput handle => exact h.changeKernel hc _ (Node.place_addOutput handle)
  | setVisualize node visualize =>
      cases node with
      | none => exact ⟨rfl, h⟩
      | some ref => exact h.setVisualize hc ref visualize
  | register node =>
      cases node with
      | none => exact ⟨rfl, h⟩
      | some ref => exact h.claimed (P := fun _ => True) trivial fun _ _ _ _ => rfl

/-- A record with links and the context it belongs to still belong together after a history. -/
theorem after (h : l.Represents c) (hc : c.IsArranged) (hnumbered : c.IsNumbered)
    (history : History) : (l.after history).Represents (c.after history) := by
  induction history generalizing l c with
  | nil => exact h
  | cons head history ih =>
      obtain ⟨thread, operation⟩ := head
      have hstep := (h.perform hc hnumbered.registry operation thread).2
      exact ih hstep (hc.after [(thread, operation)]).1 (hnumbered.after [(thread, operation)]).1

/-! ## Reading the links -/

/-- The children that are linked are those that the context finds. -/
theorem children_eq (h : l.Represents c) (hc : c.IsArranged) (p : NodeId) :
    l.children p = c.children p := by
  have hlinks := h.links p
  rw [Linked.children, h.nodes]
  cases hn : c.nodes[p]? with
  | none => exact (hc.children_of_size_le (Array.getElem?_eq_none_iff.1 hn)).symm
  | some n =>
      rw [Option.map_some]
      have hkernel : p ∈ c.kernels ↔ n.isKernel := by
        rw [hc.mem_kernels]
        refine ⟨?_, fun hkernel => ⟨n, hn, hkernel⟩⟩
        rintro ⟨kernel, hp, hkernel⟩
        rwa [Option.some.inj (hn.symm.trans hp)]
      have hgrid : l.gridLoop p = if n.isKernel then some (Context.gridOf p) else none := by
        simp only [h.gridLoop, hkernel]
      rw [hgrid] at hlinks
      cases hpayload : n.payload with
      | kernel name inputs outputs =>
          have hisKernel : n.isKernel := by rw [Node.isKernel, hpayload]
          rw [hc.children_kernel hn hisKernel]
          simp only [hgrid, if_pos hisKernel]
          rfl
      | loop kind induction extent =>
          have hnot : ¬n.isKernel := by simp [Node.isKernel, hpayload]
          rw [← hlinks, if_neg hnot]
          rfl
      | step origin number inputs outputs =>
          have hisStep : n.isStep := by rw [Node.isStep, hpayload]
          exact (hc.wellFormed.step_children hn hisStep).symm

end Represents

/-! ## The main theorem -/

/-- After any history a record with links belongs to the context with the same history, and gives
the same answers. The nodes that are linked from a node are exactly those whose parent is that node,
in the order of their numbers. The kernels that are linked are the nodes that are kernels, each with
the next node as its grid loop. The numbers and the definitions of steps are those of the context,
and the two maps are in step. -/
theorem history_linked (id : ContextId) (history : History) :
    let l := (fresh id).after history
    let c := (Context.fresh id).after history
    l.nodes = c.nodes ∧
      (∀ operation thread, (l.perform operation thread).1 = (operation.perform thread c).1) ∧
      (∀ p, l.children p = c.children p) ∧
      (∀ p q, q ∈ l.children p ↔ ∃ n, l.nodes[q]? = some n ∧ n.parent = some p) ∧
      l.kernels = c.kernels ∧
      (∀ k, l.gridLoop k = if k ∈ l.kernels then some (k + 1) else none) ∧
      (∀ d, l.maps.id? d = c.stepId? d) ∧
      (∀ i, l.maps.definitions i = c.stepDefinition? i) ∧
      ∀ function i, l.maps.ids function = some i ↔
        ∃ d, l.maps.definitions i = some d ∧ d.function = function := by
  intro l c
  have hc : c.IsArranged := Context.isArranged_after id history
  have hnumbered : c.IsNumbered := ((Context.isNumbered_fresh id).after history).1
  have h : l.Represents c := (Represents.fresh id).after (Context.isArranged_fresh id)
    (Context.isNumbered_fresh id) history
  refine ⟨h.nodes, fun operation thread => (h.perform hc hnumbered.registry operation thread).1,
    h.children_eq hc, fun p q => ?_, h.kernels, fun k => ?_, h.maps.id?_eq hnumbered.registry,
    h.maps.definitions, fun function i => h.maps.ids_eq_some hnumbered.registry⟩
  · rw [h.children_eq hc, hc.mem_children, h.nodes]
    rfl
  · rw [h.kernels]
    exact h.gridLoop k

/-- Two loops are linked from the grid loop, and the grid loop from the kernel. -/
example :
    let l := (fresh 0).after [(0, .openKernel "copy" .unbound none), (0, .openLoop none),
      (0, .closeLoop), (0, .openLoop none)]
    [0, 1, 2].map l.children = [[1], [2, 3], []] := by
  decide

end Linked

end TileTrace
