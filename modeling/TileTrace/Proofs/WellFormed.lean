import TileTrace.Proofs.Arranged

/-!
# Well-formed records

What a caller sees of a record: numbers, parents, children, and trees.
`Context.WellFormed` lists what holds of every context that operations lead to.
The main fact about it is `preorder`: the trees of the kernels, one after the
other and each in depth-first order, are the nodes in the order of their
numbers. `history_wellFormed` is the main theorem.
-/

namespace TileTrace

open TileTrace.Tree

namespace Context

/-- The nodes of the tree below a node, in depth-first order. -/
def collected (c : Context) (id : NodeId) : List Node :=
  match c.tree? id with
  | some tree => tree.toList
  | none => []

/-- What holds of a record after any operations. -/
structure WellFormed (c : Context) : Prop where
  /-- Every number below the size is the number of the node found by it. -/
  node_id : ∀ i < c.size, ∃ n, c.node i = .ok n ∧ n.id = i
  /-- The kernels in the order of their launches hold all nodes in the order of their numbers. -/
  preorder : c.kernels.flatMap c.collected = c.nodes.toList
  /-- The tree below a node is the node with the trees below its children. -/
  tree_eq : ∀ {i : Nat} {n : Node}, c.node? i = some n →
    ∃ trees, (c.children i).map c.tree? = trees.map some ∧ c.tree? i = some (.node n trees)
  /-- A node is listed as a child exactly by its parent. -/
  mem_children : ∀ {p q : Nat}, q ∈ c.children p ↔ ∃ n, c.node? q = some n ∧ n.parent = some p
  /-- Kernels and no other nodes are without a parent. -/
  kernel_iff : ∀ {i : Nat} {n : Node}, c.node? i = some n → (n.isKernel ↔ n.parent = none)
  /-- The only child of a kernel is a grid loop with the next number. -/
  kernel_children : ∀ {i : Nat} {n : Node}, c.node? i = some n → n.isKernel →
    c.children i = [i + 1] ∧ ∃ grid, c.node? (i + 1) = some grid ∧ grid.isGridLoop
  /-- Grid loops are children of kernels and of no other nodes. -/
  grid_iff : ∀ {i : Nat} {n : Node}, c.node? i = some n →
    (n.isGridLoop ↔ ∃ k kernel, n.parent = some k ∧ c.node? k = some kernel ∧ kernel.isKernel)
  /-- The children of loops are nested loops and steps. -/
  loop_children : ∀ {i : Nat} {n : Node}, c.node? i = some n → n.isLoop →
    ∀ q ∈ c.children i, ∃ child, c.node? q = some child ∧ !child.isGridLoop ∧
      (child.isLoop ∨ child.isStep)
  /-- Steps have no children. -/
  step_children : ∀ {i : Nat} {n : Node}, c.node? i = some n → n.isStep → c.children i = []

namespace IsArranged

variable {c : Context}

/-- The place of a node fits the places of the record. -/
theorem fits (h : c.IsArranged) {i : Nat} {n : Node} (hn : c.node? i = some n) :
    Fits c.places i n.place :=
  Arranged.fits h (places_eq_some.2 ⟨n, hn, rfl⟩)

/-- The nodes of an arranged context are in depth-first order. -/
theorem preordered (h : c.IsArranged) : Preordered c.nodes.toList where
  id_eq hn := h.id_eq (by rwa [Array.getElem?_toList] at hn)
  parent_onPath {i p} hlink := by
    obtain ⟨n, hn, hparent⟩ := links_eq_some.1 hlink
    have hfits := h.fits (i := i) (n := n) (by rwa [Array.getElem?_toList] at hn)
    rw [← parents_places]
    exact hfits.onPath hparent

/-- A node of the record is found by its number. -/
theorem node?_of_mem (h : c.IsArranged) {n : Node} (hn : n ∈ c.nodes.toList) :
    c.node? n.id = some n := by
  obtain ⟨i, hi⟩ := List.mem_iff_getElem?.1 hn
  rw [Array.getElem?_toList] at hi
  rw [h.id_eq hi]
  exact hi

/-- The nodes from a node on begin with the node. -/
theorem drop_eq_cons {i : Nat} {n : Node} (hn : c.node? i = some n) :
    c.nodes.toList.drop i = n :: c.nodes.toList.drop (i + 1) := by
  have hn' : c.nodes.toList[i]? = some n := by rwa [Array.getElem?_toList]
  obtain ⟨hi, rfl⟩ := List.getElem?_eq_some_iff.1 hn'
  exact List.drop_eq_getElem_cons hi

/-- Every tree that is read from the nodes from some position on is the tree below its root. -/
theorem tree?_root (h : c.IsArranged) {k : Nat} {t : Tree}
    (ht : t ∈ Tree.forest (c.nodes.toList.drop k)) : c.tree? t.root.id = some t := by
  obtain ⟨before, after, hdrop, hhead⟩ := exists_head_of_mem_forest ht
  have hsplit : c.nodes.toList.drop (k + before.length) = t.root :: after := by
    rw [← List.drop_drop, hdrop, List.drop_left]
  have hroot : c.node? (k + before.length) = some t.root := by
    have := congrArg List.head? hsplit
    rwa [List.head?_drop, Array.getElem?_toList] at this
  rw [h.id_eq hroot, tree?, hsplit, hhead]

/-- The trees below the children of a node, as they are read from the nodes after it. -/
private def childTrees (c : Context) (i : Nat) : List Tree :=
  (Tree.forest (c.nodes.toList.drop (i + 1))).filter fun t => t.root.parent = some i

/-- The tree below a node has the trees that hang below it. -/
private theorem tree?_eq_node (h : c.IsArranged) {i : Nat} {n : Node} (hn : c.node? i = some n) :
    c.tree? i = some (.node n (childTrees c i)) := by
  rw [tree?, drop_eq_cons hn, forest_cons, List.head?_cons, h.id_eq hn]
  rfl

/-- Children come after their parent. -/
theorem lt_of_parent (h : c.IsArranged) {i p : Nat} {n : Node} (hn : c.node? i = some n)
    (hparent : n.parent = some p) : p < i :=
  h.preordered.parent_lt (links_eq_some.2 ⟨n, by rwa [Array.getElem?_toList], hparent⟩)

/-- The children of a node are the roots of the trees that hang below it. -/
private theorem children_eq_map (h : c.IsArranged) (i : Nat) :
    c.children i = (childTrees c i).map fun t => t.root.id := by
  have hbefore : (c.nodes.toList.take (i + 1)).filter (fun n => n.parent = some i) = [] := by
    rw [List.filter_eq_nil_iff]
    intro n hn hparent
    obtain ⟨j, hj, hget⟩ := List.mem_take_iff_getElem.1 hn
    have hnode : c.node? j = some n := by
      rw [node?, ← Array.getElem?_toList, ← hget]
      exact List.getElem?_eq_getElem _
    have := h.lt_of_parent hnode (by simpa using hparent)
    omega
  have hafter : ∀ n ∈ c.nodes.toList.drop (i + 1), some i ≠ some n.id := by
    intro n hn heq
    obtain ⟨j, hj, hget⟩ := List.mem_drop_iff_getElem.1 hn
    have hnode : c.node? (i + 1 + j) = some n := by
      rw [node?, ← Array.getElem?_toList, ← hget]
      exact List.getElem?_eq_getElem _
    have hid : i = i + 1 + j := (Option.some.inj heq).trans (h.id_eq hnode)
    omega
  rw [children, ← List.take_append_drop (i + 1) c.nodes.toList, List.filter_append, hbefore,
    List.nil_append, ← filter_roots hafter, List.map_map]
  rfl

/-- The trees that hang below a node are those of its children. -/
private theorem children_map_tree? (h : c.IsArranged) (i : Nat) :
    (c.children i).map c.tree? = (childTrees c i).map some := by
  rw [h.children_eq_map, List.map_map]
  exact List.map_congr_left fun t ht => h.tree?_root (List.mem_filter.1 ht).1

/-- A node is listed as a child exactly by its parent. -/
theorem mem_children (h : c.IsArranged) {p q : Nat} :
    q ∈ c.children p ↔ ∃ n, c.node? q = some n ∧ n.parent = some p := by
  rw [children, List.mem_map]
  constructor
  · rintro ⟨n, hn, rfl⟩
    obtain ⟨hmem, hparent⟩ := List.mem_filter.1 hn
    exact ⟨n, h.node?_of_mem hmem, by simpa using hparent⟩
  · rintro ⟨n, hn, hparent⟩
    refine ⟨n, List.mem_filter.2 ⟨?_, by simpa using hparent⟩, h.id_eq hn⟩
    exact List.mem_iff_getElem?.2 ⟨q, by rwa [Array.getElem?_toList]⟩

/-- The numbers of the nodes are those below the size, in order. -/
theorem map_id (h : c.IsArranged) : c.nodes.toList.map (·.id) = List.range c.size := by
  apply List.ext_getElem?
  intro i
  rw [List.getElem?_map, Array.getElem?_toList]
  cases hn : c.nodes[i]? with
  | none =>
      have hi : c.size ≤ i := Array.getElem?_eq_none_iff.1 hn
      rw [List.getElem?_eq_none (by simpa using hi)]
      rfl
  | some n =>
      have hi : i < c.size := (Array.getElem?_eq_some_iff.1 hn).1
      rw [List.getElem?_range hi]
      exact congrArg some (h.id_eq hn)

/-- No node is listed twice among children. -/
theorem nodup_children (h : c.IsArranged) (p : Nat) : (c.children p).Nodup := by
  have hsub : (c.children p).Sublist (c.nodes.toList.map (·.id)) := List.filter_sublist.map _
  rw [h.map_id] at hsub
  exact List.nodup_range.sublist hsub

/-! ## Kinds of parents and children -/

/-- Kernels and no other nodes are without a parent. -/
theorem kernel_iff (h : c.IsArranged) {i : Nat} {n : Node} (hn : c.node? i = some n) :
    n.isKernel ↔ n.parent = none := by
  rw [Node.isKernel_iff]
  refine ⟨fun hkind => ((h.fits hn).of_kernel hkind).1, fun hparent => ?_⟩
  cases hkind : n.kind with
  | kernel => rfl
  | grid =>
      obtain ⟨k, _, _, hk, _⟩ := (h.fits hn).of_grid hkind
      cases hparent.symm.trans hk
  | nested =>
      obtain ⟨p, _, hp, _⟩ := (h.fits hn).of_inner (.inl hkind)
      cases hparent.symm.trans hp
  | step =>
      obtain ⟨p, _, hp, _⟩ := (h.fits hn).of_inner (.inr hkind)
      cases hparent.symm.trans hp

/-- What hangs below a kernel is a grid loop with the next number, and what hangs below another
node is a nested loop or a step, and that node is a loop. -/
theorem child_cases (h : c.IsArranged) {p q : Nat} {outer n : Node}
    (houter : c.node? p = some outer) (hn : c.node? q = some n) (hparent : n.parent = some p) :
    (outer.kind = .kernel ∧ n.kind = .grid ∧ q = p + 1) ∨
      ((outer.kind = .grid ∨ outer.kind = .nested) ∧ (n.kind = .nested ∨ n.kind = .step)) := by
  have hplace (f : Place) (hf : c.places[p]? = some f) : f.kind = outer.kind := by
    obtain ⟨m, hm, rfl⟩ := places_eq_some.1 hf
    obtain rfl := Option.some.inj (houter.symm.trans hm)
    rfl
  have hinner (hkind : n.kind = .nested ∨ n.kind = .step) :
      outer.kind = .grid ∨ outer.kind = .nested := by
    obtain ⟨p', f, hp', hf, hloop⟩ := (h.fits hn).of_inner hkind
    obtain rfl := Option.some.inj (hparent.symm.trans hp')
    exact hplace f hf ▸ hloop
  cases hkind : n.kind with
  | kernel =>
      have := ((h.fits hn).of_kernel hkind).1
      cases hparent.symm.trans this
  | grid =>
      obtain ⟨k, f, hq, hk, hf, hkernel⟩ := (h.fits hn).of_grid hkind
      obtain rfl := Option.some.inj (hparent.symm.trans hk)
      exact .inl ⟨hplace f hf ▸ hkernel, rfl, hq⟩
  | nested => exact .inr ⟨hinner (.inl hkind), .inl rfl⟩
  | step => exact .inr ⟨hinner (.inr hkind), .inr rfl⟩

/-- The grid loop of a kernel. -/
theorem exists_grid (h : c.IsArranged) {i : Nat} {n : Node} (hn : c.node? i = some n)
    (hkernel : n.isKernel) :
    ∃ grid, c.node? (i + 1) = some grid ∧ grid.isGridLoop ∧ grid.parent = some i := by
  obtain ⟨-, f, hf, hgrid⟩ := (h.fits hn).of_kernel (Node.isKernel_iff.1 hkernel)
  obtain ⟨grid, hnode, rfl⟩ := places_eq_some.1 hf
  obtain ⟨k, -, hi, hk, -⟩ := (h.fits hnode).of_grid hgrid
  obtain rfl : k = i := by omega
  exact ⟨grid, hnode, Node.isGridLoop_iff.2 hgrid, hk⟩

/-- The only child of a kernel is its grid loop. -/
theorem children_kernel (h : c.IsArranged) {i : Nat} {n : Node} (hn : c.node? i = some n)
    (hkernel : n.isKernel) : c.children i = [i + 1] := by
  obtain ⟨grid, hgrid, -, hparent⟩ := h.exists_grid hn hkernel
  have hmem : i + 1 ∈ c.children i := h.mem_children.2 ⟨grid, hgrid, hparent⟩
  have hall : ∀ q ∈ c.children i, q = i + 1 := by
    intro q hq
    obtain ⟨m, hm, hparent⟩ := h.mem_children.1 hq
    obtain ⟨-, -, hq⟩ | ⟨hloop, -⟩ := h.child_cases hn hm hparent
    · exact hq
    · rw [Node.isKernel_iff.1 hkernel] at hloop
      obtain hloop | hloop := hloop <;> cases hloop
  have hnodup := h.nodup_children i
  revert hmem hall hnodup
  match c.children i with
  | [] => intro hmem; cases hmem
  | [q] => intro _ hall _; rw [hall q List.mem_cons_self]
  | q :: r :: rest =>
      intro _ hall hnodup
      have hq := hall q List.mem_cons_self
      have hr := hall r (List.mem_cons_of_mem _ List.mem_cons_self)
      simp [hq, hr] at hnodup

/-- Grid loops are children of kernels and of no other nodes. -/
theorem grid_iff (h : c.IsArranged) {i : Nat} {n : Node} (hn : c.node? i = some n) :
    n.isGridLoop ↔
      ∃ k kernel, n.parent = some k ∧ c.node? k = some kernel ∧ kernel.isKernel := by
  constructor
  · intro hgrid
    obtain ⟨k, f, -, hk, hf, hkernel⟩ := (h.fits hn).of_grid (Node.isGridLoop_iff.1 hgrid)
    obtain ⟨kernel, hnode, rfl⟩ := places_eq_some.1 hf
    exact ⟨k, kernel, hk, hnode, Node.isKernel_iff.2 hkernel⟩
  · rintro ⟨k, kernel, hk, hnode, hkernel⟩
    obtain ⟨-, hgrid, -⟩ | ⟨hloop, -⟩ := h.child_cases hnode hn hk
    · exact Node.isGridLoop_iff.2 hgrid
    · rw [Node.isKernel_iff.1 hkernel] at hloop
      obtain hloop | hloop := hloop <;> cases hloop

/-- The kernels in the order of their launches hold all nodes in the order of their numbers. -/
theorem preorder (h : c.IsArranged) : c.kernels.flatMap c.collected = c.nodes.toList := by
  -- The kernels are the roots of the forest that all nodes form.
  have hroots : (Tree.forest c.nodes.toList).map root = c.nodes.toList.filter (·.isKernel) := by
    have htop : ((Tree.forest c.nodes.toList).filter fun t => t.root.parent = none).map root =
        c.nodes.toList.filter fun n => n.parent = none := filter_roots nofun
    rw [List.filter_eq_self.2 fun t ht => by simp [h.preordered.parent_root ht]] at htop
    rw [htop]
    refine List.filter_congr fun n hn => ?_
    rw [Bool.eq_iff_iff, h.kernel_iff (h.node?_of_mem hn), decide_eq_true_iff]
  have hcollected : ∀ t ∈ Tree.forest c.nodes.toList, c.collected t.root.id = t.toList := by
    intro t ht
    rw [collected, h.tree?_root (k := 0) ht]
  calc c.kernels.flatMap c.collected
    _ = (Tree.forest c.nodes.toList).flatMap fun t => c.collected t.root.id := by
        rw [kernels, ← hroots, List.flatMap_map, List.flatMap_map]
    _ = (Tree.forest c.nodes.toList).flatMap toList := by
        rw [List.flatMap_def, List.flatMap_def, List.map_congr_left hcollected]
    _ = forestToList (Tree.forest c.nodes.toList) := (forestToList_eq_flatMap _).symm
    _ = c.nodes.toList := h.preordered.forestToList_forest_drop 0

/-- An arranged context is well formed. -/
theorem wellFormed (h : c.IsArranged) : c.WellFormed where
  node_id i hi := by
    have hnode : c.node? i = some c.nodes[i] := Array.getElem?_eq_getElem hi
    refine ⟨c.nodes[i], ?_, h.id_eq hnode⟩
    simp only [node, hnode]
  preorder := h.preorder
  tree_eq {i _} hn := ⟨childTrees c i, h.children_map_tree? i, h.tree?_eq_node hn⟩
  mem_children := h.mem_children
  kernel_iff := h.kernel_iff
  kernel_children hn hkernel := by
    obtain ⟨grid, hgrid, hisGrid, -⟩ := h.exists_grid hn hkernel
    exact ⟨h.children_kernel hn hkernel, grid, hgrid, hisGrid⟩
  grid_iff := h.grid_iff
  loop_children {i n} hn hloop q hq := by
    obtain ⟨child, hchild, hparent⟩ := h.mem_children.1 hq
    refine ⟨child, hchild, ?_⟩
    obtain ⟨hkernel, -, -⟩ | ⟨-, hkind⟩ := h.child_cases hn hchild hparent
    · rw [Node.isLoop_iff, hkernel] at hloop
      obtain hloop | hloop := hloop <;> cases hloop
    · rw [Bool.not_eq_true', Bool.eq_false_iff, ne_eq, Node.isGridLoop_iff, Node.isLoop_iff,
        Node.isStep_iff]
      obtain hkind | hkind := hkind <;> simp [hkind]
  step_children {i n} hn hstep := by
    refine List.eq_nil_iff_forall_not_mem.2 fun q hq => ?_
    obtain ⟨child, hchild, hparent⟩ := h.mem_children.1 hq
    rw [Node.isStep_iff] at hstep
    obtain ⟨hkernel, -, -⟩ | ⟨hloop, -⟩ := h.child_cases hn hchild hparent
    · cases hstep.symm.trans hkernel
    · rw [hstep] at hloop
      obtain hloop | hloop := hloop <;> cases hloop

end IsArranged

/-- Every operation, whether it succeeds or is refused, leaves a well-formed record, and no
operation ever changes the number or the parent of a node. -/
theorem history_wellFormed (id : ContextId) (history more : History) :
    ((fresh id).after history).WellFormed ∧
      ∀ {i : Nat} {n : Node}, ((fresh id).after history).node? i = some n →
        ∃ m, (((fresh id).after history).after more).node? i = some m ∧
          m.id = n.id ∧ m.parent = n.parent := by
  have harranged := isArranged_after id history
  refine ⟨harranged.wellFormed, fun {i n} hn => ?_⟩
  obtain ⟨-, hprefix⟩ := harranged.after more
  obtain ⟨added, hadded⟩ := hprefix
  have hplace : (((fresh id).after history).places ++ added)[i]? = some n.place :=
    getElem?_append_of_eq_some (places_eq_some.2 ⟨n, hn, rfl⟩)
  rw [hadded] at hplace
  obtain ⟨m, hm, hsame⟩ := places_eq_some.1 hplace
  exact ⟨m, hm, congrArg Place.id hsame, congrArg Place.parent hsame⟩

end Context

end TileTrace
