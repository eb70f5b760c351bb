import TileTrace.Proofs.Arranged

/-!
# What operations do to nodes

An operation adds nodes and changes nodes. `Operation.Adds` lists the nodes that
each operation adds, `Operation.Changes` lists how it may change a node that is
there, and `Step.changes` and `Step.adds` say that the lists are complete. A node
keeps its tag, its induction symbol, and its place whatever happens to it.
-/

namespace TileTrace

namespace Operation

/-- The nodes that an operation that succeeds adds, by number. -/
inductive Adds (c : Context) : Operation → Nat → Node → Prop where
  | kernel (name : String) (template : Coordinate) (extent : Option Value) :
      Adds c (.openKernel name template extent) c.size (c.nextKernel name template)
  | grid (name : String) (template : Coordinate) (extent : Option Value) :
      Adds c (.openKernel name template extent) (c.size + 1) (c.nextGrid template extent)
  | loop (extent : Option Value) (scope : Scope) (outer : Node) :
      c.scope = some scope → c.node? scope.loop = some outer →
      Adds c (.openLoop extent) c.size (c.nextLoop outer extent)
  | step (origin : StepDefinition) (tag : Coordinate) (requested : Option StepId)
      (inputs : List Handle) (scope : Scope) (outer : Node) (definitionId : StepId) :
      c.scope = some scope → c.node? scope.loop = some outer →
      Adds c (.recordStep origin tag requested inputs) c.size
        (c.nextStep outer origin definitionId tag inputs)

/-- How an operation that succeeds may change the node with the given number. Only nodes of the open
kernel change. -/
inductive Changes (c : Context) : Operation → Nat → Node → Node → Prop where
  | keeps (operation : Operation) (i : Nat) (n : Node) : Changes c operation i n n
  | input (handle : Handle) (scope : Scope) (n : Node) :
      c.scope = some scope → Changes c (.addKernelInput handle) scope.kernel n (n.addInput handle)
  | output (handle : Handle) (scope : Scope) (n : Node) :
      c.scope = some scope → Changes c (.addKernelOutput handle) scope.kernel n (n.addOutput handle)
  | flag (ref : NodeRef) (visualize : Bool) (n : Node) :
      c.inOpenKernel ref = true →
      Changes c (.setVisualize (some ref) visualize) ref.node.id n { n with visualize := visualize }

variable {c d : Context} {operation : Operation} {i : Nat} {n m : Node}

namespace Changes

variable (h : Changes c operation i n m)
include h

theorem place : m.place = n.place := by
  cases h with
  | keeps => rfl
  | input handle => exact n.place_addInput handle
  | output handle => exact n.place_addOutput handle
  | flag => rfl

theorem tag : m.tag = n.tag := by
  cases h with
  | keeps => rfl
  | input => obtain ⟨_, _, _, _, _ | _ | _⟩ := n <;> rfl
  | output => obtain ⟨_, _, _, _, _ | _ | _⟩ := n <;> rfl
  | flag => rfl

theorem induction : m.induction = n.induction := by
  cases h with
  | keeps => rfl
  | input => obtain ⟨_, _, _, _, _ | _ | _⟩ := n <;> rfl
  | output => obtain ⟨_, _, _, _, _ | _ | _⟩ := n <;> rfl
  | flag => rfl

end Changes

theorem toList_withKernel (c : Context) (name : String) (template : Coordinate)
    (extent : Option Value) : (c.withKernel name template extent).nodes.toList =
      c.nodes.toList ++ [c.nextKernel name template, c.nextGrid template extent] := by
  simp [Context.withKernel]

theorem toList_withLoop (c : Context) (kernel : NodeId) (outer : Node) (extent : Option Value) :
    (c.withLoop kernel outer extent).nodes.toList =
      c.nodes.toList ++ [c.nextLoop outer extent] := by
  simp [Context.withLoop]

theorem toList_withStep (c : Context) (outer : Node) (origin : StepDefinition)
    (definitionId : StepId) (registry : Registry) (tag : Coordinate) (inputs : List Handle) :
    (c.withStep outer origin definitionId registry tag inputs).nodes.toList =
      c.nodes.toList ++ [c.nextStep outer origin definitionId tag inputs] := by
  simp [Context.withStep]

/-- Nodes stay when nodes are added at the end. -/
private theorem node?_of_append {more : List Node}
    (hnodes : d.nodes.toList = c.nodes.toList ++ more) (hn : c.node? i = some n) :
    d.node? i = some n := by
  rw [Context.node?, ← Array.getElem?_toList] at hn ⊢
  rw [hnodes]
  exact getElem?_append_of_eq_some hn

/-- The other nodes are those that were added. -/
private theorem more_of_append {more : List Node}
    (hnodes : d.nodes.toList = c.nodes.toList ++ more) (hnew : c.node? i = none)
    (hm : d.node? i = some m) :
    ∃ j, i = c.size + j ∧ more[j]? = some m := by
  rw [Context.node?, ← Array.getElem?_toList] at hnew hm
  rw [hnodes, List.getElem?_append_right (List.getElem?_eq_none_iff.1 hnew)] at hm
  have hsize : c.size ≤ i := List.getElem?_eq_none_iff.1 hnew
  exact ⟨i - c.size, (Nat.add_sub_of_le hsize).symm, hm⟩

/-- A change of one node changes this node. -/
private theorem changes_modifyNode {id : NodeId} {change : Node → Node} (hn : c.node? i = some n)
    (hchange : Changes c operation id n (change n)) :
    ∃ m, (c.modifyNode id change).node? i = some m ∧ Changes c operation i n m := by
  rw [Context.node?_modifyNode]
  by_cases hid : id = i
  · subst hid
    exact ⟨change n, by rw [if_pos rfl, hn]; rfl, hchange⟩
  · exact ⟨n, by rw [if_neg hid, hn], .keeps operation i n⟩

/-- An operation that succeeds keeps every node, or changes it as listed. -/
theorem Step.changes (hstep : Step c operation d) (hn : c.node? i = some n) :
    ∃ m, d.node? i = some m ∧ Changes c operation i n m := by
  cases hstep with
  | openKernel name template extent hscope =>
      exact ⟨n, node?_of_append (toList_withKernel ..) hn, .keeps _ i n⟩
  | openLoop extent scope outer hscope houter =>
      exact ⟨n, node?_of_append (toList_withLoop ..) hn, .keeps _ i n⟩
  | recordStep origin tag requested inputs scope outer definitionId registry hscope houter hbind =>
      exact ⟨n, node?_of_append (toList_withStep ..) hn, .keeps _ i n⟩
  | closeLoop scope loop outer hscope hloop hgrid hparent => exact ⟨n, hn, .keeps _ i n⟩
  | closeKernel scope loop kernel hscope hloop hkernel hgrid => exact ⟨n, hn, .keeps _ i n⟩
  | addKernelInput handle scope hscope => exact changes_modifyNode hn (.input handle scope n hscope)
  | addKernelOutput handle scope hscope =>
      exact changes_modifyNode hn (.output handle scope n hscope)
  | setVisualize ref visualize hopen => exact changes_modifyNode hn (.flag ref visualize n hopen)

/-- An operation that succeeds adds the listed nodes and no others. -/
theorem Step.adds (hstep : Step c operation d) (hnew : c.node? i = none) (hm : d.node? i = some m) :
    Adds c operation i m := by
  have hkeeps {change : Node → Node} {id : NodeId}
      (hm : (c.modifyNode id change).node? i = some m) : False := by
    rw [Context.node?_modifyNode, hnew] at hm
    split at hm <;> cases hm
  cases hstep with
  | openKernel name template extent hscope =>
      obtain ⟨j, rfl, hj⟩ := more_of_append (toList_withKernel ..) hnew hm
      match j, hj with
      | 0, rfl => exact .kernel name template extent
      | 1, rfl => exact .grid name template extent
  | openLoop extent scope outer hscope houter =>
      obtain ⟨j, rfl, hj⟩ := more_of_append (toList_withLoop ..) hnew hm
      match j, hj with
      | 0, rfl => exact .loop extent scope outer hscope houter
  | recordStep origin tag requested inputs scope outer definitionId registry hscope houter hbind =>
      obtain ⟨j, rfl, hj⟩ := more_of_append (toList_withStep ..) hnew hm
      match j, hj with
      | 0, rfl => exact .step origin tag requested inputs scope outer definitionId hscope houter
  | closeLoop scope loop outer hscope hloop hgrid hparent => cases hnew.symm.trans hm
  | closeKernel scope loop kernel hscope hloop hkernel hgrid => cases hnew.symm.trans hm
  | addKernelInput handle scope hscope => exact (hkeeps hm).elim
  | addKernelOutput handle scope hscope => exact (hkeeps hm).elim
  | setVisualize ref visualize hopen => exact (hkeeps hm).elim

end Operation

end TileTrace
