import TileTrace.Proofs.Ancestors
import TileTrace.Proofs.Atomicity

/-!
# The scope as a stack

A context keeps no stack of its open loops, only the current loop, the open
kernel, and the parents of nodes. `Nests` says how a stack that is kept beside a
context belongs to these, and `Nests.step` says which way every operation moves
it. `Nests.mirrors`, the main theorem, says that what the context shows of its
scope is read off the stack.
-/

namespace TileTrace

open TileTrace.Tree

/-! ## Where the stack is in the record -/

namespace Context

/-- How a stack of loops, the innermost first, belongs to the scope of a context. While a kernel
is open, the stack and the kernel are the way up from the current loop, and the kernel is the
latest. -/
inductive Nests (c : Context) : List NodeId → Prop where
  | idle : c.scope = none → Nests c []
  | inside (scope : Scope) (loop : Node) (stack : List NodeId) :
      c.scope = some scope → c.node? scope.loop = some loop →
      c.lineage loop = stack ++ [scope.kernel] → c.kernels.getLast? = some scope.kernel →
      Nests c stack

/-- The kernels are among the places. -/
theorem kernels_eq (c : Context) :
    c.kernels = (c.places.filter fun f => f.kind = .kernel).map Place.id := by
  have hkind (n : Node) : n.isKernel = decide (n.place.kind = .kernel) := by
    rw [Bool.eq_iff_iff, Node.isKernel_iff, decide_eq_true_iff]
    rfl
  rw [kernels, places, List.filter_map, List.map_map, List.filter_congr fun n _ => hkind n]
  rfl

end Context

/-- The stack after an operation that succeeds. -/
def Operation.moved (c : Context) (stack : List NodeId) : Operation → List NodeId
  | openKernel _ _ _ => (c.size + 1) :: stack
  | openLoop _ => c.size :: stack
  | closeLoop => stack.tail
  | closeKernel => []
  | _ => stack

namespace Context.Nests

variable {c d : Context} {stack : List NodeId}

/-- Nodes that are added or changed elsewhere leave the stack where it is. -/
theorem of_isPrefix (h : c.IsArranged) (hd : d.IsArranged) (hplaces : c.places <+: d.places)
    (hscope : d.scope = c.scope) (hkernels : d.kernels = c.kernels) (hnests : c.Nests stack) :
    d.Nests stack := by
  cases hnests with
  | idle hidle => exact .idle (hscope.trans hidle)
  | inside scope loop _ hsome hloop hlineage hlast =>
      obtain ⟨loop', hloop', -⟩ := exists_node?_of_isPrefix hplaces hloop
      refine .inside scope loop' stack (hscope.trans hsome) hloop' ?_ (hkernels ▸ hlast)
      rw [h.lineage_of_isPrefix hd hplaces hloop hloop', hlineage]

/-- While a kernel is open, the stack leads from the current loop to the kernel. -/
theorem of_scope (hnests : c.Nests stack) {scope : Scope} {loop : Node}
    (hscope : c.scope = some scope) (hloop : c.node? scope.loop = some loop) :
    c.lineage loop = stack ++ [scope.kernel] ∧ c.kernels.getLast? = some scope.kernel := by
  cases hnests with
  | idle hidle => cases hscope.symm.trans hidle
  | inside scope' loop' _ hscope' hloop' hlineage hlast =>
      obtain rfl := Option.some.inj (hscope.symm.trans hscope')
      obtain rfl := Option.some.inj (hloop.symm.trans hloop')
      exact ⟨hlineage, hlast⟩

/-- An operation that succeeds moves the stack. -/
theorem step (h : c.IsArranged) (hnests : c.Nests stack) {operation : Operation}
    (hstep : operation.Step c d) : d.Nests (operation.moved c stack) := by
  obtain ⟨hd, hplaces⟩ := hstep.arranged h
  cases hstep with
  | openKernel name template extent hscope =>
      have hkernel := c.node?_withKernel_kernel name template extent
      have hgrid := c.node?_withKernel_grid name template extent
      refine .inside ⟨c.size, c.size + 1⟩ _ _ rfl hgrid ?_ ?_
      · rw [hd.lineage_child hgrid rfl hkernel, hd.lineage_root hkernel rfl]
        obtain rfl : stack = [] := by
          cases hnests with
          | idle => rfl
          | inside scope loop _ hsome => cases hscope.symm.trans hsome
        rfl
      · rw [kernels_eq, places_withKernel]
        simp [length_places]
  | openLoop extent scope outer hscope houter =>
      obtain ⟨hlineage, hlast⟩ := hnests.of_scope hscope houter
      have hloop := c.node?_withLoop scope.kernel outer extent
      have hparent : (c.nextLoop outer extent).parent = some scope.loop :=
        congrArg some (h.id_eq houter)
      obtain ⟨outer', houter'⟩ := hd.exists_outer hloop hparent
      refine .inside ⟨scope.kernel, c.size⟩ _ _ rfl hloop ?_ ?_
      · rw [hd.lineage_child hloop hparent houter', h.lineage_of_isPrefix hd hplaces houter houter',
          hlineage]
        rfl
      · rw [← hlast, kernels_eq, kernels_eq, places_withLoop]
        simp
  | closeLoop scope loop outer hscope hloop hgrid hparent =>
      obtain ⟨hlineage, hlast⟩ := hnests.of_scope hscope hloop
      obtain ⟨outerLoop, houter⟩ := h.exists_outer hloop hparent
      rw [h.lineage_child hloop hparent houter] at hlineage
      refine .inside ⟨scope.kernel, outer⟩ outerLoop _ rfl houter ?_ hlast
      cases stack with
      | nil => exact absurd (List.cons.inj hlineage).2 (List.cons_ne_nil _ _)
      | cons top stack => exact (List.cons.inj hlineage).2
  | recordStep origin tag requested inputs scope outer definitionId registry hscope houter hbind =>
      refine hnests.of_isPrefix h hd hplaces rfl ?_
      rw [kernels_eq, kernels_eq, places_withStep]
      simp
  | closeKernel scope loop kernel hscope hloop hkernel hgrid => exact .idle rfl
  | addKernelInput handle scope hscope =>
      refine hnests.of_isPrefix h hd hplaces rfl ?_
      rw [kernels_eq, kernels_eq, places_modifyNode _ _ (Node.place_addInput handle)]
  | addKernelOutput handle scope hscope =>
      refine hnests.of_isPrefix h hd hplaces rfl ?_
      rw [kernels_eq, kernels_eq, places_modifyNode _ _ (Node.place_addOutput handle)]
  | setVisualize ref visualize hopen =>
      refine hnests.of_isPrefix h hd hplaces rfl ?_
      rw [kernels_eq, kernels_eq, c.places_modifyNode ref.node.id]
      exact fun _ => rfl

end Context.Nests

/-! ## What a context shows of its scope -/

namespace Context.IsArranged

variable {c : Context} {i : Nat} {n : Node}

/-- Whether the node with the given number is there and no grid loop. -/
private def insideGrid (c : Context) (id : NodeId) : Bool :=
  match c.node? id with
  | some n => !n.isGridLoop
  | none => false

/-- The way up from a loop to its grid loop is its lineage without the grid loop and the kernel. -/
private theorem length_insideGrid (h : c.IsArranged) (hn : c.node? i = some n) (hloop : n.isLoop) :
    ((c.lineage n).takeWhile (insideGrid c)).length + 2 = (c.lineage n).length ∧
      (n.isGridLoop = true ↔ (c.lineage n).length = 2) := by
  refine h.loop_induction (P := fun _ n =>
    ((c.lineage n).takeWhile (insideGrid c)).length + 2 = (c.lineage n).length ∧
      (n.isGridLoop = true ↔ (c.lineage n).length = 2)) ?_ ?_ hn hloop
  · intro k n kernel hn hgrid hparent hkernel hisKernel
    have hinside : insideGrid c (k + 1) = false := by simp [insideGrid, hn, hgrid]
    rw [h.lineage_grid hn hparent hkernel hisKernel, List.takeWhile_cons, hinside]
    simp [hgrid]
  · intro i n p outer hn _ hgrid hparent houter _ ih
    have hinside : insideGrid c i = true := by simp [insideGrid, hn, hgrid]
    rw [h.lineage_child hn hparent houter, List.takeWhile_cons, if_pos hinside, hgrid]
    simp only [List.length_cons, Bool.false_eq_true, false_iff]
    omega

/-- How far the current loop is from its kernel. -/
theorem length_lineage (h : c.IsArranged) {loop : Node} (hcurrent : c.currentLoop? = some loop) :
    (c.lineage loop).length = c.loopDepth + 2 ∧
      (loop.isGridLoop = true ↔ (c.lineage loop).length = 2) := by
  obtain ⟨scope, hscope, hloop⟩ := currentLoop?_eq_some.1 hcurrent
  obtain ⟨hdepth, hgrid⟩ := h.length_insideGrid hloop (h.isLoop_of_scope hscope hloop)
  have hloopDepth : c.loopDepth = ((c.lineage loop).takeWhile (insideGrid c)).length := by
    rw [loopDepth, hcurrent]
    rfl
  exact ⟨by rw [hloopDepth, hdepth], hgrid⟩

end Context.IsArranged

namespace Context

namespace Nests

variable {c : Context} {stack : List NodeId}

/-- Another owner leaves the stack where it is. -/
theorem claimedBy (hnests : c.Nests stack) (thread : ThreadId) :
    (c.claimedBy thread).Nests stack := by
  cases hnests with
  | idle hidle => exact .idle hidle
  | inside scope loop _ hscope hloop hlineage hlast =>
      exact .inside scope loop stack hscope hloop hlineage hlast

/-- While a kernel is open, the way up from the current loop is the stack and the kernel. -/
theorem exists_loop (h : c.IsArranged) (hnests : c.Nests stack) {scope : Scope}
    (hscope : c.scope = some scope) :
    ∃ loop, c.currentLoop? = some loop ∧ c.node? scope.loop = some loop ∧
      c.lineage loop = stack ++ [scope.kernel] ∧ c.kernels.getLast? = some scope.kernel := by
  obtain ⟨loop, hcurrent⟩ := h.exists_currentLoop hscope
  obtain ⟨scope', hscope', hloop⟩ := currentLoop?_eq_some.1 hcurrent
  obtain rfl := Option.some.inj (hscope.symm.trans hscope')
  exact ⟨loop, hcurrent, hloop, hnests.of_scope hscope hloop⟩

/-- How many loops the stack has while a kernel is open. -/
theorem length_eq (h : c.IsArranged) (hnests : c.Nests stack) {loop : Node}
    (hcurrent : c.currentLoop? = some loop) :
    stack.length = c.loopDepth + 1 ∧ (loop.isGridLoop = true ↔ stack.length = 1) := by
  obtain ⟨scope, hscope, hloop⟩ := currentLoop?_eq_some.1 hcurrent
  obtain ⟨hdepth, hgrid⟩ := h.length_lineage hcurrent
  have hlength := congrArg List.length (hnests.of_scope hscope hloop).1
  rw [List.length_append, List.length_singleton] at hlength
  rw [hgrid]
  omega

/-- The stack is empty while no kernel is open, and only then. -/
theorem scope_eq_none (h : c.IsArranged) (hnests : c.Nests stack) :
    c.scope = none ↔ stack = [] := by
  cases hscope : c.scope with
  | none =>
      cases hnests with
      | idle => simp
      | inside scope loop _ hsome => cases hscope.symm.trans hsome
  | some scope =>
      obtain ⟨loop, hcurrent, -, -, -⟩ := hnests.exists_loop h hscope
      have hlength := (hnests.length_eq h hcurrent).1
      simp only [reduceCtorEq, false_iff]
      rintro rfl
      cases hlength

/-- The current loop is the grid loop of the open kernel while it is the only one. -/
theorem eq_gridOf (h : c.IsArranged) (hnests : c.Nests stack) {scope : Scope}
    (hscope : c.scope = some scope) : scope.loop = gridOf scope.kernel ↔ stack.length = 1 := by
  obtain ⟨loop, hcurrent, hloop, hlineage, -⟩ := hnests.exists_loop h hscope
  obtain ⟨kernel, hkernel, hisKernel⟩ := h.exists_openKernel hscope
  rw [← (hnests.length_eq h hcurrent).2]
  constructor
  · intro hgrid
    obtain ⟨grid, hgridNode, hisGrid⟩ := (h.wellFormed.kernel_children hkernel hisKernel).2
    rw [hgrid] at hloop
    obtain rfl := Option.some.inj (hloop.symm.trans hgridNode)
    exact hisGrid
  · intro hgrid
    obtain ⟨k, place, hk, hparent, hplace, hisKernel⟩ :=
      (h.fits hloop).of_grid (Node.isGridLoop_iff.1 hgrid)
    obtain ⟨outer, houter, rfl⟩ := places_eq_some.1 hplace
    rw [hk] at hloop
    rw [h.lineage_grid hloop hparent houter (Node.isKernel_iff.2 hisKernel)] at hlineage
    have hlast : k = scope.kernel := by simpa using congrArg List.getLast? hlineage
    rw [hk, hlast, gridOf]

end Nests

end Context

end TileTrace
