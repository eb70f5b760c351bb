import TileTrace.Proofs.RecordTree

/-!
# The way from a node to its kernel

Parents have smaller numbers, so the way up from any node ends, and it ends at a
kernel. `Context.lineage` is this way, by `IsArranged.climbs_lineage`.
`IsArranged.lineage_child` unfolds it by one step, and
`IsArranged.parent_induction` is the induction that goes with it.
The lineage never changes, by `lineage_of_isPrefix`, the tree below a node holds
the nodes with that node in their lineage, by `mem_toList_iff`, and the topmost
node above a node is the kernel in its lineage, by `rootOf_eq_iff`.
-/

namespace TileTrace

open TileTrace.Tree

namespace Context

/-- The number of a node and those of the nodes above it, the kernel last. -/
def lineage (c : Context) (n : Node) : List NodeId :=
  n.id :: c.ancestors n

/-- The nodes on the way up from a node, found by following parents to a node without one. -/
inductive Climbs (c : Context) : NodeId → List NodeId → Prop where
  | top (id : NodeId) (n : Node) : c.node? id = some n → n.parent = none → Climbs c id [id]
  | up (id parent : NodeId) (n : Node) (path : List NodeId) :
      c.node? id = some n → n.parent = some parent → Climbs c parent path → Climbs c id (id :: path)

/-- A chain of parents begins with a parent that is there, and goes on with the parents of it. -/
private theorem parentChain_take {ns : List Node}
    (hid : ∀ {i : Nat} {n : Node}, ns[i]? = some n → n.id = i) {p : Nat} {outer : Node}
    (houter : ns[p]? = some outer) {k : Nat} (hp : p < k) :
    parentChain (ns.take k).reverse (some p) =
      p :: parentChain (ns.take p).reverse outer.parent := by
  induction k with
  | zero => omega
  | succ k ih =>
      cases hk : ns[k]? with
      | none =>
          have hlength : ns.length ≤ k := List.getElem?_eq_none_iff.1 hk
          have hplt : p < ns.length := (List.getElem?_eq_some_iff.1 houter).1
          rw [← ih (by omega), List.take_of_length_le hlength, List.take_of_length_le (by omega)]
      | some n =>
          rw [List.take_add_one, hk, Option.toList_some, List.reverse_append,
            List.reverse_singleton, List.singleton_append, parentChain]
          by_cases hkp : k = p
          · subst hkp
            obtain rfl := Option.some.inj (hk.symm.trans houter)
            rw [if_pos (hid hk)]
          · rw [if_neg (by rw [hid hk]; exact hkp), ih (by omega)]

/-- A node keeps its place when places are added. -/
theorem exists_node?_of_isPrefix {c d : Context} (hplaces : c.places <+: d.places) {i : Nat}
    {n : Node} (hn : c.node? i = some n) : ∃ m, d.node? i = some m ∧ m.place = n.place := by
  obtain ⟨more, hmore⟩ := hplaces
  apply places_eq_some.1
  rw [← hmore]
  exact getElem?_append_of_eq_some (places_eq_some.2 ⟨n, hn, rfl⟩)

namespace IsArranged

variable {c d : Context}

/-- The parent of a node is a node with a smaller number. -/
theorem exists_outer (h : c.IsArranged) {i p : Nat} {n : Node} (hn : c.node? i = some n)
    (hparent : n.parent = some p) : ∃ outer, c.node? p = some outer := by
  have hlt : p < i := h.lt_of_parent hn hparent
  have hi : i < c.size := (Array.getElem?_eq_some_iff.1 hn).1
  exact ⟨_, Array.getElem?_eq_getElem (Nat.lt_trans hlt hi)⟩

/-- What holds of nodes without a parent, and of a node if it holds of its parent, holds of all
nodes. -/
theorem parent_induction {P : Nat → Node → Prop} (h : c.IsArranged)
    (root : ∀ {i n}, c.node? i = some n → n.parent = none → P i n)
    (child : ∀ {i n p outer}, c.node? i = some n → n.parent = some p → c.node? p = some outer →
      P p outer → P i n) {i : Nat} {n : Node} (hn : c.node? i = some n) : P i n := by
  induction i using Nat.strongRecOn generalizing n with
  | ind i ih =>
      cases hparent : n.parent with
      | none => exact root hn hparent
      | some p =>
          obtain ⟨outer, houter⟩ := h.exists_outer hn hparent
          exact child hn hparent houter (ih p (h.lt_of_parent hn hparent) houter)

/-- The lineage of a node without a parent is the node. -/
theorem lineage_root (h : c.IsArranged) {i : Nat} {n : Node} (hn : c.node? i = some n)
    (hparent : n.parent = none) : c.lineage n = [i] := by
  have hancestors : c.ancestors n = [] := by
    rw [ancestors, hparent]
    cases (c.nodes.toList.take n.id).reverse <;> rfl
  rw [lineage, hancestors, h.id_eq hn]

/-- The lineage of another node is the node and the lineage of its parent. -/
theorem lineage_child (h : c.IsArranged) {i p : Nat} {n outer : Node} (hn : c.node? i = some n)
    (hparent : n.parent = some p) (houter : c.node? p = some outer) :
    c.lineage n = i :: c.lineage outer := by
  have hid : ∀ {i : Nat} {n : Node}, c.nodes.toList[i]? = some n → n.id = i := fun hm =>
    h.preordered.id_eq hm
  have hlt : p < n.id := by
    rw [h.id_eq hn]
    exact h.lt_of_parent hn hparent
  rw [lineage, ancestors, hparent, parentChain_take hid (by rwa [Array.getElem?_toList]) hlt,
    lineage, ancestors, h.id_eq hn, h.id_eq houter]

/-- The way up from a node is its lineage. -/
theorem climbs_lineage (h : c.IsArranged) {i : Nat} {n : Node} (hn : c.node? i = some n) :
    c.Climbs i (c.lineage n) := by
  refine h.parent_induction (P := fun i n => c.Climbs i (c.lineage n)) ?_ ?_ hn
  · intro i n hn hparent
    rw [h.lineage_root hn hparent]
    exact .top i n hn hparent
  · intro i n p outer hn hparent houter ih
    rw [h.lineage_child hn hparent houter]
    exact .up i p n _ hn hparent ih

/-- Nodes that stay where they are keep their lineage. -/
theorem lineage_of_isPrefix (h : c.IsArranged) (hd : d.IsArranged) (hplaces : c.places <+: d.places)
    {i : Nat} {n m : Node} (hn : c.node? i = some n) (hm : d.node? i = some m) :
    d.lineage m = c.lineage n := by
  have hplace {i : Nat} {n m : Node} (hn : c.node? i = some n) (hm : d.node? i = some m) :
      m.parent = n.parent := by
    obtain ⟨m', hm', hsame⟩ := exists_node?_of_isPrefix hplaces hn
    obtain rfl := Option.some.inj (hm.symm.trans hm')
    exact congrArg Place.parent hsame
  refine h.parent_induction (P := fun i n => ∀ m, d.node? i = some m → d.lineage m = c.lineage n)
    ?_ ?_ hn m hm
  · intro i n hn hparent m hm
    rw [h.lineage_root hn hparent, hd.lineage_root hm ((hplace hn hm).trans hparent)]
  · intro i n p outer hn hparent houter ih m hm
    have hparent' := (hplace hn hm).trans hparent
    obtain ⟨outer', houter'⟩ := hd.exists_outer hm hparent'
    rw [h.lineage_child hn hparent houter, hd.lineage_child hm hparent' houter', ih _ houter']

/-! ## Loops -/

/-- What holds of grid loops, and of a nested loop if it holds of the loop around it, holds of all
loops. -/
theorem loop_induction {P : Nat → Node → Prop} (h : c.IsArranged)
    (grid : ∀ {k n kernel}, c.node? (k + 1) = some n → n.isGridLoop → n.parent = some k →
      c.node? k = some kernel → kernel.isKernel → P (k + 1) n)
    (nested : ∀ {i n p outer}, c.node? i = some n → n.isLoop → n.isGridLoop = false →
      n.parent = some p → c.node? p = some outer → outer.isLoop → P p outer → P i n)
    {i : Nat} {n : Node} (hn : c.node? i = some n) (hloop : n.isLoop) : P i n := by
  refine h.parent_induction (P := fun i n => n.isLoop → P i n) ?_ ?_ hn hloop
  · intro i n hn hparent hloop
    have hkernel := (h.kernel_iff hn).2 hparent
    rw [Node.isLoop_iff, Node.isKernel_iff.1 hkernel] at hloop
    obtain hloop | hloop := hloop <;> cases hloop
  · intro i n p outer hn hparent houter ih hloop
    obtain ⟨hkernel, hgrid, rfl⟩ | ⟨hisLoop, hinner⟩ := h.child_cases houter hn hparent
    · exact grid hn (Node.isGridLoop_iff.2 hgrid) hparent houter (Node.isKernel_iff.2 hkernel)
    · have hgrid : n.isGridLoop = false := by
        rw [Bool.eq_false_iff, ne_eq, Node.isGridLoop_iff]
        obtain hinner | hinner := hinner <;> rw [hinner] <;> nofun
      have houterLoop := Node.isLoop_iff.2 hisLoop
      exact nested hn hloop hgrid hparent houter houterLoop (ih houterLoop)

/-- The lineage of a grid loop is the loop and its kernel. -/
theorem lineage_grid (h : c.IsArranged) {k : Nat} {n kernel : Node} (hn : c.node? (k + 1) = some n)
    (hparent : n.parent = some k) (hkernel : c.node? k = some kernel)
    (hisKernel : kernel.isKernel) :
    c.lineage n = [k + 1, k] := by
  rw [h.lineage_child hn hparent hkernel,
    h.lineage_root hkernel ((h.kernel_iff hkernel).1 hisKernel)]

/-! ## Kernels at the top -/

/-- The topmost node above a child is that above its parent. -/
theorem rootOf_child (h : c.IsArranged) {i p : Nat} {n outer : Node} (hn : c.node? i = some n)
    (hparent : n.parent = some p) (houter : c.node? p = some outer) :
    c.rootOf n = c.rootOf outer := by
  have hlast (n : Node) : (c.lineage n).getLast? = some (c.rootOf n) := by
    rw [lineage, rootOf, List.getLast?_cons, List.getLastD_eq_getLast?]
  have hne : c.lineage outer ≠ [] := List.cons_ne_nil _ _
  have hlineage := congrArg List.getLast? (h.lineage_child hn hparent houter)
  rw [List.getLast?_cons_of_ne_nil hne, hlast, hlast] at hlineage
  exact Option.some.inj hlineage

/-- The topmost node above a node without a parent is that node. -/
theorem rootOf_root (h : c.IsArranged) {i : Nat} {n : Node} (hn : c.node? i = some n)
    (hparent : n.parent = none) : c.rootOf n = i := by
  have hlineage := h.lineage_root hn hparent
  rw [lineage, List.cons.injEq] at hlineage
  rw [rootOf, hlineage.1, hlineage.2, List.getLastD_nil]

/-- A kernel is the topmost node above exactly the nodes that have it in their lineage. -/
theorem rootOf_eq_iff (h : c.IsArranged) {i k : Nat} {n kernel : Node} (hn : c.node? i = some n)
    (hk : c.node? k = some kernel) (hkernel : kernel.isKernel) :
    c.rootOf n = k ↔ k ∈ c.lineage n := by
  refine h.parent_induction (P := fun _ n => c.rootOf n = k ↔ k ∈ c.lineage n) ?_ ?_ hn
  · intro i n hn hparent
    rw [h.rootOf_root hn hparent, h.lineage_root hn hparent, List.mem_singleton, eq_comm]
  · intro i n p outer hn hparent houter ih
    have hki : k ≠ i := by
      rintro rfl
      obtain rfl := Option.some.inj (hk.symm.trans hn)
      rw [(h.kernel_iff hk).1 hkernel] at hparent
      cases hparent
    rw [h.rootOf_child hn hparent houter, h.lineage_child hn hparent houter, List.mem_cons, ih]
    simp [hki]

/-- The kernels of a context are the nodes that are kernels. -/
theorem mem_kernels (h : c.IsArranged) {k : Nat} :
    k ∈ c.kernels ↔ ∃ kernel, c.node? k = some kernel ∧ kernel.isKernel := by
  rw [kernels, List.mem_map]
  constructor
  · rintro ⟨kernel, hkernel, rfl⟩
    obtain ⟨hmem, hisKernel⟩ := List.mem_filter.1 hkernel
    exact ⟨kernel, h.node?_of_mem hmem, hisKernel⟩
  · rintro ⟨kernel, hk, hisKernel⟩
    have hmem : kernel ∈ c.nodes.toList := Array.mem_toList_iff.2 (Array.mem_of_getElem? hk)
    exact ⟨kernel, List.mem_filter.2 ⟨hmem, hisKernel⟩, h.id_eq hk⟩

/-- The open kernel is a kernel. -/
theorem exists_openKernel (h : c.IsArranged) {scope : Scope} (hscope : c.scope = some scope) :
    ∃ kernel, c.node? scope.kernel = some kernel ∧ kernel.isKernel := by
  obtain ⟨⟨f, hf, hkind⟩, -, -, -⟩ := Arranged.scope h scope hscope
  obtain ⟨kernel, hkernel, rfl⟩ := places_eq_some.1 hf
  exact ⟨kernel, hkernel, Node.isKernel_iff.2 hkind⟩

/-- The current loop is a loop. -/
theorem isLoop_of_scope (h : c.IsArranged) {scope : Scope} (hscope : c.scope = some scope)
    {loop : Node} (hloop : c.node? scope.loop = some loop) : loop.isLoop := by
  obtain ⟨-, ⟨f, hf, hkind⟩, -, -⟩ := Arranged.scope h scope hscope
  obtain ⟨loop', hloop', rfl⟩ := places_eq_some.1 hf
  obtain rfl := Option.some.inj (hloop.symm.trans hloop')
  exact Node.isLoop_iff.2 hkind

/-- What is above a node is in its lineage. -/
theorem mem_lineage_of_above (h : c.IsArranged) {p i : Nat}
    (habove : Above (Place.parents c.places) p i) {n : Node} (hn : c.node? i = some n) :
    p ∈ c.lineage n := by
  induction habove generalizing n with
  | self => rw [lineage, h.id_eq hn]; exact List.mem_cons_self
  | @up i q hlink _ ih =>
      have hparent : n.parent = some q := by
        obtain ⟨m, hm, hparent⟩ := links_eq_some.1 (parents_places c ▸ hlink)
        rw [Array.getElem?_toList] at hm
        obtain rfl := Option.some.inj (hn.symm.trans hm)
        exact hparent
      obtain ⟨outer, houter⟩ := h.exists_outer hn hparent
      rw [h.lineage_child hn hparent houter]
      exact List.mem_cons_of_mem _ (ih houter)

/-- The open kernel is the topmost node above the current loop. -/
theorem rootOf_currentLoop (h : c.IsArranged) {scope : Scope} (hscope : c.scope = some scope)
    {loop : Node} (hloop : c.node? scope.loop = some loop) : c.rootOf loop = scope.kernel := by
  obtain ⟨kernel, hkernel, hisKernel⟩ := h.exists_openKernel hscope
  rw [h.rootOf_eq_iff hloop hkernel hisKernel]
  exact h.mem_lineage_of_above (Arranged.scope h scope hscope).above hloop

/-! ## Trees and lineages -/

/-- A number in a lineage is that of the node, or that of a parent of a node in the lineage. -/
theorem mem_lineage_iff (h : c.IsArranged) {i j : Nat} {m : Node} (hm : c.node? j = some m) :
    i ∈ c.lineage m ↔
      i = j ∨ ∃ q child, c.node? q = some child ∧ child.parent = some i ∧ q ∈ c.lineage m := by
  refine h.parent_induction (P := fun j m => i ∈ c.lineage m ↔ i = j ∨
    ∃ q child, c.node? q = some child ∧ child.parent = some i ∧ q ∈ c.lineage m) ?_ ?_ hm
  · intro j m hm hparent
    rw [h.lineage_root hm hparent]
    simp only [List.mem_singleton]
    refine ⟨.inl, ?_⟩
    rintro (hij | ⟨q, child, hq, hchild, rfl⟩)
    · exact hij
    · obtain rfl := Option.some.inj (hm.symm.trans hq)
      cases hparent.symm.trans hchild
  · intro j m p outer hm hparent houter ih
    rw [h.lineage_child hm hparent houter]
    simp only [List.mem_cons]
    constructor
    · rintro (hij | hi)
      · exact .inl hij
      · obtain rfl | ⟨q, child, hq, hchild, hmem⟩ := ih.1 hi
        · exact .inr ⟨j, m, hm, hparent, .inl rfl⟩
        · exact .inr ⟨q, child, hq, hchild, .inr hmem⟩
    · rintro (hij | ⟨q, child, hq, hchild, rfl | hmem⟩)
      · exact .inl hij
      · obtain rfl := Option.some.inj (hm.symm.trans hq)
        obtain rfl := Option.some.inj (hparent.symm.trans hchild)
        exact .inr (ih.2 (.inl rfl))
      · exact .inr (ih.2 (.inr ⟨q, child, hq, hchild, hmem⟩))

/-- A tree is the one below a node. -/
theorem exists_node_of_tree? {i : Nat} {t : Tree} (ht : c.tree? i = some t) :
    ∃ n, c.node? i = some n := by
  cases hn : c.node? i with
  | some n => exact ⟨n, rfl⟩
  | none =>
      have hsize : c.size ≤ i := Array.getElem?_eq_none_iff.1 hn
      rw [tree?, List.drop_eq_nil_of_le (by rwa [Array.length_toList])] at ht
      cases ht

/-- The tree below a node holds the node and what the trees below its children hold. -/
theorem mem_toList_children (h : c.IsArranged) {i : Nat} {n : Node} (hn : c.node? i = some n)
    {t : Tree} (ht : c.tree? i = some t) {m : Node} :
    m ∈ t.toList ↔ m = n ∨ ∃ q child u, c.node? q = some child ∧ child.parent = some i ∧
      c.tree? q = some u ∧ m ∈ u.toList := by
  obtain ⟨trees, hchildren, htree⟩ := h.wellFormed.tree_eq hn
  obtain rfl := Option.some.inj (ht.symm.trans htree)
  rw [toList, List.mem_cons, forestToList_eq_flatMap, List.mem_flatMap]
  refine or_congr_right ⟨?_, ?_⟩
  · rintro ⟨u, hu, hm⟩
    have hmem : some u ∈ (c.children i).map c.tree? := hchildren ▸ List.mem_map_of_mem hu
    obtain ⟨q, hq, hqu⟩ := List.mem_map.1 hmem
    obtain ⟨child, hchild, hparent⟩ := h.mem_children.1 hq
    exact ⟨q, child, u, hchild, hparent, hqu, hm⟩
  · rintro ⟨q, child, u, hchild, hparent, hqu, hm⟩
    have hmem : some u ∈ trees.map some := by
      rw [← hchildren, ← hqu]
      exact List.mem_map_of_mem (h.mem_children.2 ⟨child, hchild, hparent⟩)
    obtain ⟨u', hu', heq⟩ := List.mem_map.1 hmem
    exact ⟨u, Option.some.inj heq ▸ hu', hm⟩

/-- The tree below a node holds the nodes that have it in their lineage. -/
theorem mem_toList_iff (h : c.IsArranged) {i : Nat} {t : Tree} (ht : c.tree? i = some t)
    {m : Node} : m ∈ t.toList ↔ ∃ j, c.node? j = some m ∧ i ∈ c.lineage m := by
  -- Children come later, so the induction is on the number of nodes after this one.
  induction hrest : c.size - i using Nat.strongRecOn generalizing i t with
  | ind rest ih =>
      obtain ⟨n, hn⟩ := exists_node_of_tree? ht
      have hchild {q : Nat} {child : Node} (hq : c.node? q = some child)
          (hparent : child.parent = some i) {u : Tree} (hu : c.tree? q = some u) :
          m ∈ u.toList ↔ ∃ j, c.node? j = some m ∧ q ∈ c.lineage m := by
        have hiq : i < q := h.lt_of_parent hq hparent
        have hsize : q < c.size := (Array.getElem?_eq_some_iff.1 hq).1
        exact ih (c.size - q) (by omega) hu rfl
      rw [h.mem_toList_children hn ht]
      constructor
      · rintro (rfl | ⟨q, child, u, hq, hparent, hu, hm⟩)
        · exact ⟨i, hn, (h.mem_lineage_iff hn).2 (.inl rfl)⟩
        · obtain ⟨j, hj, hmem⟩ := (hchild hq hparent hu).1 hm
          exact ⟨j, hj, (h.mem_lineage_iff hj).2 (.inr ⟨q, child, hq, hparent, hmem⟩)⟩
      · rintro ⟨j, hj, hmem⟩
        obtain rfl | ⟨q, child, hq, hparent, hmem⟩ := (h.mem_lineage_iff hj).1 hmem
        · exact .inl (Option.some.inj (hj.symm.trans hn))
        · obtain ⟨u, hu, -, -⟩ := h.isRecord hq
          exact .inr ⟨q, child, u, hq, hparent, hu, (hchild hq hparent hu).2 ⟨j, hj, hmem⟩⟩

end IsArranged

end Context

end TileTrace
