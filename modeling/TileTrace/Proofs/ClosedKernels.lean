import Mathlib.Data.List.Sort
import TileTrace.Proofs.Ancestors
import TileTrace.Proofs.Atomicity
import TileTrace.Proofs.NodeChanges

/-!
# Closed kernels

A kernel that is closed never changes again: operations change nodes of the open
kernel only, and new nodes belong to it. `SameBelow` says that a kernel has the
same nodes in two contexts, which makes for the same tree, by `SameBelow.tree?`.
`Operation.Step.sameBelow` says that every operation keeps closed kernels like
this, and `history_frozen`, the main theorem, that everything that may happen in
a world does.
-/

namespace TileTrace

open TileTrace.Tree

namespace Context

/-- A kernel that is there and not open. -/
structure IsClosed (c : Context) (k : NodeId) : Prop where
  isKernel : ∃ n, c.node? k = some n ∧ n.isKernel
  notOpen : ∀ scope, c.scope = some scope → scope.kernel ≠ k

/-- A kernel has the same nodes in both contexts. -/
def SameBelow (k : NodeId) (c d : Context) : Prop :=
  ∀ (j : Nat) (n : Node),
    c.node? j = some n ∧ k ∈ c.lineage n ↔ d.node? j = some n ∧ k ∈ d.lineage n

namespace SameBelow

variable {c d e : Context} {k : NodeId}

theorem refl (k : NodeId) (c : Context) : SameBelow k c c :=
  fun _ _ => .rfl

theorem symm (h : SameBelow k c d) : SameBelow k d c :=
  fun j n => (h j n).symm

theorem trans (h : SameBelow k c d) (h' : SameBelow k d e) : SameBelow k c e :=
  fun j n => (h j n).trans (h' j n)

variable (hc : c.IsArranged) (hd : d.IsArranged) (h : SameBelow k c d) {i : Nat} {n : Node}
  (hn : c.node? i = some n) (hbelow : k ∈ c.lineage n)
include hc hd h hn hbelow

/-- The children are children. -/
private theorem child {q : Nat} (hq : q ∈ c.children i) :
    q ∈ d.children i ∧ ∃ child, c.node? q = some child ∧ k ∈ c.lineage child := by
  obtain ⟨child, hchild, hparent⟩ := hc.mem_children.1 hq
  have hlineage : k ∈ c.lineage child := by
    rw [hc.lineage_child hchild hparent hn]
    exact List.mem_cons_of_mem _ hbelow
  have hchild' := ((h q child).1 ⟨hchild, hlineage⟩).1
  exact ⟨hd.mem_children.2 ⟨child, hchild', hparent⟩, child, hchild, hlineage⟩

/-- A node of the kernel has the same children. -/
theorem children : c.children i = d.children i := by
  have hsorted {c : Context} (hc : c.IsArranged) : (c.children i).Pairwise (· < ·) := by
    have hsub : (c.children i).Sublist (c.nodes.toList.map (·.id)) := List.filter_sublist.map _
    rw [hc.map_id] at hsub
    exact List.pairwise_lt_range.sublist hsub
  obtain ⟨hn', hbelow'⟩ := (h i n).1 ⟨hn, hbelow⟩
  exact (hsorted hc).eq_of_mem_iff (hsorted hd) fun q =>
    ⟨fun hq => (child hc hd h hn hbelow hq).1, fun hq => (child hd hc h.symm hn' hbelow' hq).1⟩

/-- A node of the kernel has the same tree. -/
theorem tree? : c.tree? i = d.tree? i := by
  -- Children come later, so the induction is on the number of nodes after this one.
  induction hrest : c.size - i using Nat.strongRecOn generalizing i n with
  | ind rest ih =>
      obtain ⟨trees, htrees, htree⟩ := hc.wellFormed.tree_eq hn
      obtain ⟨trees', htrees', htree'⟩ := hd.wellFormed.tree_eq ((h i n).1 ⟨hn, hbelow⟩).1
      have hsame : trees.map some = trees'.map some := by
        rw [← htrees, ← htrees', ← children hc hd h hn hbelow]
        refine List.map_congr_left fun (q : Nat) hq => ?_
        obtain ⟨-, child, hchild, hlineage⟩ := child hc hd h hn hbelow hq
        obtain ⟨child', hchild', hparent⟩ := hc.mem_children.1 hq
        have hiq : i < q := hc.lt_of_parent hchild' hparent
        have hsize : q < c.size := (Array.getElem?_eq_some_iff.1 hchild).1
        exact ih (c.size - q) (by omega) hchild hlineage rfl
      rw [htree, htree', List.map_injective_iff.2 (Option.some_injective _) hsame]

end SameBelow

variable {c : Context}

/-- When a reference is to a node of the open kernel. -/
theorem inOpenKernel_iff {ref : NodeRef} :
    c.inOpenKernel ref = true ↔ ∃ scope n, c.scope = some scope ∧
      c.node? ref.node.id = some n ∧ ref.home = c.id ∧ c.rootOf n = scope.kernel := by
  rw [inOpenKernel]
  cases c.scope with
  | none => simp
  | some scope =>
      cases c.node? ref.node.id with
      | none => simp
      | some n => simp

end Context

namespace Operation

open Context

variable {c d : Context} {operation : Operation} {k : NodeId} {i : Nat} {n m : Node}

/-- Nodes of closed kernels stay as they are. -/
theorem Changes.eq_of_closed (h : c.IsArranged) (hclosed : c.IsClosed k)
    (hn : c.node? i = some n) (hbelow : k ∈ c.lineage n) (hchanges : Changes c operation i n m) :
    m = n := by
  obtain ⟨kernel, hk, hkernel⟩ := hclosed.isKernel
  have hroot := (h.rootOf_eq_iff hn hk hkernel).2 hbelow
  have hopen {scope : Scope} (hscope : c.scope = some scope) (hi : i = scope.kernel) : False := by
    obtain ⟨kernel', hk', hkernel'⟩ := h.exists_openKernel hscope
    rw [← hi] at hk'
    obtain rfl := Option.some.inj (hn.symm.trans hk')
    rw [h.rootOf_root hn ((h.kernel_iff hn).1 hkernel'), hi] at hroot
    exact hclosed.notOpen scope hscope hroot
  cases hchanges with
  | keeps => rfl
  | input handle scope _ hscope => exact (hopen hscope rfl).elim
  | output handle scope _ hscope => exact (hopen hscope rfl).elim
  | flag ref visualize _ hin =>
      obtain ⟨scope, n', hscope, hn', -, hroot'⟩ := inOpenKernel_iff.1 hin
      obtain rfl := Option.some.inj (hn.symm.trans hn')
      exact absurd (hroot'.symm.trans hroot) (hclosed.notOpen scope hscope)

/-- New nodes do not belong to closed kernels. -/
theorem Adds.not_mem_lineage (h : c.IsArranged) (hclosed : c.IsClosed k)
    (hstep : Step c operation d) (hn : d.node? i = some n) (hadds : Adds c operation i n) :
    k ∉ d.lineage n := by
  obtain ⟨hd, hplaces⟩ := hstep.arranged h
  obtain ⟨kernel, hk, hkernel⟩ := hclosed.isKernel
  have hsize : k < c.size := (Array.getElem?_eq_some_iff.1 hk).1
  have hinner {scope : Scope} {outer n : Node} (hscope : c.scope = some scope)
      (houter : c.node? scope.loop = some outer) (hn : d.node? c.size = some n)
      (hparent : n.parent = some scope.loop) : k ∉ d.lineage n := by
    obtain ⟨outer', houter', -⟩ := exists_node?_of_isPrefix hplaces houter
    rw [hd.lineage_child hn hparent houter', h.lineage_of_isPrefix hd hplaces houter houter',
      List.mem_cons, ← h.rootOf_eq_iff houter hk hkernel, h.rootOf_currentLoop hscope houter]
    exact not_or.2 ⟨Nat.ne_of_lt hsize, hclosed.notOpen scope hscope⟩
  cases hadds with
  | kernel name template extent =>
      rw [hd.lineage_root hn rfl, List.mem_singleton]
      exact Nat.ne_of_lt hsize
  | grid name template extent =>
      cases hstep with
      | openKernel _ _ _ hscope =>
          have hkernel' := c.node?_withKernel_kernel name template extent
          rw [hd.lineage_grid hn rfl hkernel' rfl]
          simp [Nat.ne_of_lt hsize, Nat.ne_of_lt (Nat.lt_succ_of_lt hsize)]
  | loop extent scope outer hscope houter =>
      exact hinner hscope houter hn (congrArg some (h.id_eq houter))
  | step origin tag requested inputs scope outer definitionId hscope houter =>
      exact hinner hscope houter hn (congrArg some (h.id_eq houter))

/-- The scope after an operation that succeeds is below the same kernel or a new one. -/
theorem Step.scope_kernel (hstep : Step c operation d) {scope : Scope}
    (hscope : d.scope = some scope) :
    scope.kernel = c.size ∨ ∃ before, c.scope = some before ∧ before.kernel = scope.kernel := by
  cases hstep with
  | openKernel => cases hscope; exact .inl rfl
  | openLoop extent before outer hbefore => cases hscope; exact .inr ⟨before, hbefore, rfl⟩
  | closeLoop before loop outer hbefore => cases hscope; exact .inr ⟨before, hbefore, rfl⟩
  | closeKernel => cases hscope
  | recordStep | addKernelInput | addKernelOutput | setVisualize =>
      exact .inr ⟨scope, hscope, rfl⟩

/-- Operations that succeed keep closed kernels closed, and with the same nodes. -/
theorem Step.sameBelow (h : c.IsArranged) (hclosed : c.IsClosed k) (hstep : Step c operation d) :
    d.IsClosed k ∧ SameBelow k c d := by
  obtain ⟨hd, hplaces⟩ := hstep.arranged h
  obtain ⟨kernel, hk, hkernel⟩ := hclosed.isKernel
  have hkeeps {j : Nat} {n : Node} (hn : c.node? j = some n) (hbelow : k ∈ c.lineage n) :
      d.node? j = some n := by
    obtain ⟨m, hm, hchanges⟩ := hstep.changes hn
    rw [hm, hchanges.eq_of_closed h hclosed hn hbelow]
  refine ⟨⟨⟨kernel, ?_, hkernel⟩, ?_⟩, fun j n => ⟨?_, ?_⟩⟩
  · refine hkeeps hk ((h.rootOf_eq_iff hk hk hkernel).1 ?_)
    exact h.rootOf_root hk ((h.kernel_iff hk).1 hkernel)
  · intro scope hscope hopen
    obtain hnew | ⟨before, hbefore, hsame⟩ := hstep.scope_kernel hscope
    · have hsize : k < c.size := (Array.getElem?_eq_some_iff.1 hk).1
      exact absurd (hopen.symm.trans hnew) (Nat.ne_of_lt hsize)
    · exact hclosed.notOpen before hbefore (hsame.trans hopen)
  · rintro ⟨hn, hbelow⟩
    have hn' := hkeeps hn hbelow
    exact ⟨hn', h.lineage_of_isPrefix hd hplaces hn hn' ▸ hbelow⟩
  · rintro ⟨hn, hbelow⟩
    cases hold : c.node? j with
    | none => exact absurd hbelow ((hstep.adds hold hn).not_mem_lineage h hclosed hstep hn)
    | some m =>
        rw [h.lineage_of_isPrefix hd hplaces hold hn] at hbelow
        obtain rfl := Option.some.inj ((hkeeps hold hbelow).symm.trans hn)
        exact ⟨rfl, hbelow⟩

end Operation

end TileTrace
