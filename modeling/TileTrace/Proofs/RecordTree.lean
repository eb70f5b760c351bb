import Mathlib.Data.List.Forall2
import TileTrace.Proofs.WellFormed

/-!
# The trees of a record

Which trees does a record consist of? The tree below a loop or a step is made of
loops and steps, and the tree below a kernel adds the kernel on top. This is what
walks over a tree may rely on: `Context.IsArranged.isRecord` gives it for every
node of a record, and `nodup_toList` says that no node occurs twice in a tree.
Both hold whatever flags the nodes carry.
-/

namespace TileTrace

namespace Tree

/-- A tree of loops and steps, whose steps are leaves. -/
inductive IsBody : Tree → Prop where
  | step {n : Node} : n.isStep → IsBody (node n [])
  | loop {n : Node} {children : List Tree} : n.isLoop → (∀ t ∈ children, t.IsBody) →
      IsBody (node n children)

/-- A tree of loops and steps, or a kernel on top of one. -/
inductive IsRecord : Tree → Prop where
  | kernel {n : Node} {body : Tree} : n.isKernel → body.IsBody → IsRecord (node n [body])
  | body {t : Tree} : t.IsBody → IsRecord t

mutual
/-- The trees at the nodes of a tree, the one at a node after those at its children. -/
def subtrees : Tree → List Tree
  | node n children => forestSubtrees children ++ [node n children]

/-- The trees at the nodes of a forest, the one at a node after those at its children. -/
def forestSubtrees : List Tree → List Tree
  | [] => []
  | t :: ts => subtrees t ++ forestSubtrees ts
end

end Tree

open TileTrace.Tree

namespace Context

/-- The tree holds the record below a node: the node, and below it a tree for each of its children,
in order. -/
inductive Spans (c : Context) : NodeId → Tree → Prop where
  | node {id : NodeId} {n : Node} {trees : List Tree} :
      c.node? id = some n → List.Forall₂ (Spans c) (c.children id) trees →
      Spans c id (.node n trees)

/-- A partial function that finds all of a list relates what it finds. -/
theorem forall₂_of_map_eq {α β : Type} {f : α → Option β} {R : α → β → Prop} {as : List α}
    {bs : List β} (h : as.map f = bs.map some) (hR : ∀ a ∈ as, ∀ b, f a = some b → R a b) :
    List.Forall₂ R as bs := by
  induction as generalizing bs with
  | nil =>
      obtain rfl := List.map_eq_nil_iff.1 h.symm
      exact .nil
  | cons a as ih =>
      obtain ⟨b, bs, rfl, hb, hbs⟩ := List.map_eq_cons_iff.1 h.symm
      refine .cons (hR a List.mem_cons_self b hb.symm) (ih hbs.symm fun a' ha' => ?_)
      exact hR a' (List.mem_cons_of_mem _ ha')

/-- The context with other flags on its nodes. -/
def withFlags (c : Context) (flags : NodeId → Bool) : Context :=
  { c with nodes := c.nodes.map fun n => { n with visualize := flags n.id } }

@[simp] theorem places_withFlags (c : Context) (flags : NodeId → Bool) :
    (c.withFlags flags).places = c.places := by
  simp only [places, withFlags, Array.toList_map, List.map_map]
  rfl

theorem node?_withFlags (c : Context) (flags : NodeId → Bool) (i : Nat) :
    (c.withFlags flags).node? i =
      (c.node? i).map fun n => { n with visualize := flags n.id } := by
  rw [node?, node?, withFlags, Array.getElem?_map]

namespace IsArranged

variable {c : Context}

/-- Other flags leave a context arranged. -/
theorem withFlags (h : c.IsArranged) (flags : NodeId → Bool) : (c.withFlags flags).IsArranged := by
  rw [IsArranged, places_withFlags]
  exact h

/-- The tree below a node holds the nodes from that node on, up to some node. -/
theorem toList_isPrefix (h : c.IsArranged) {i : Nat} {t : Tree} (ht : c.tree? i = some t) :
    t.toList <+: c.nodes.toList.drop i := by
  obtain ⟨rest, hrest⟩ := List.head?_eq_some_iff.1 ht
  rw [← h.preordered.forestToList_forest_drop i, hrest, forestToList]
  exact List.prefix_append _ _

/-- No number occurs twice in a tree. -/
theorem nodup_toList (h : c.IsArranged) {i : Nat} {t : Tree} (ht : c.tree? i = some t) :
    (t.toList.map (·.id)).Nodup := by
  have hsub : (t.toList.map (·.id)).Sublist (c.nodes.toList.map (·.id)) :=
    ((h.toList_isPrefix ht).sublist.trans (List.drop_sublist i _)).map _
  rw [h.map_id] at hsub
  exact List.nodup_range.sublist hsub

/-- The trees that hang below a node are those of its children. -/
theorem exists_children (h : c.IsArranged) {i : Nat} {n : Node} (hn : c.node? i = some n) :
    ∃ trees, c.tree? i = some (.node n trees) ∧
      ∀ t ∈ trees, ∃ (q : Nat) (m : Node), c.node? q = some m ∧ m.parent = some i ∧
        c.tree? q = some t := by
  obtain ⟨trees, hchildren, htree⟩ := h.wellFormed.tree_eq hn
  refine ⟨trees, htree, fun t ht => ?_⟩
  have hmem : some t ∈ (c.children i).map c.tree? := by
    rw [hchildren]
    exact List.mem_map_of_mem ht
  obtain ⟨q, hq, hqt⟩ := List.mem_map.1 hmem
  obtain ⟨m, hm, hparent⟩ := h.mem_children.1 hq
  exact ⟨q, m, hm, hparent, hqt⟩

/-- The tree below a node holds the record below the node. -/
theorem spans (h : c.IsArranged) {i : Nat} {t : Tree} (ht : c.tree? i = some t)
    {n : Node} (hn : c.node? i = some n) : c.Spans i t := by
  -- Children come later, so the induction is on the number of nodes after this one.
  induction hm : c.size - i using Nat.strongRecOn generalizing i n t with
  | ind m ih =>
      obtain ⟨trees, hchildren, htree⟩ := h.wellFormed.tree_eq hn
      obtain rfl := Option.some.inj (ht.symm.trans htree)
      have hlater : ∀ q : Nat, q ∈ c.children i → ∀ u, c.tree? q = some u → c.Spans q u := by
        intro q hq u hu
        obtain ⟨child, hchild, hparent⟩ := h.mem_children.1 hq
        have hiq : i < q := h.lt_of_parent hchild hparent
        have hsize : q < c.size := (Array.getElem?_eq_some_iff.1 hchild).1
        exact ih (c.size - q) (by omega) hu hchild rfl
      exact .node hn (forall₂_of_map_eq hchildren hlater)

/-- The tree below a loop or a step is made of loops and steps. -/
theorem isBody (h : c.IsArranged) {i : Nat} {n : Node} (hn : c.node? i = some n)
    (hkind : n.kind ≠ .kernel) {t : Tree} (ht : c.tree? i = some t) : t.IsBody := by
  -- Children come later, so the induction is on the number of nodes after this one.
  induction hm : c.size - i using Nat.strongRecOn generalizing i n t with
  | ind m ih =>
      obtain ⟨trees, htree, htrees⟩ := h.exists_children hn
      obtain rfl := Option.some.inj (ht.symm.trans htree)
      by_cases hloop : n.isLoop
      · refine .loop hloop fun u hu => ?_
        obtain ⟨q, child, hchild, hparent, hqu⟩ := htrees u hu
        have hiq : i < q := h.lt_of_parent hchild hparent
        have hq : q < c.size := (Array.getElem?_eq_some_iff.1 hchild).1
        refine ih (c.size - q) (by omega) hchild ?_ hqu rfl
        obtain ⟨hkernel, -, -⟩ | ⟨-, hinner⟩ := h.child_cases hn hchild hparent
        · exact absurd hkernel hkind
        · obtain hinner | hinner := hinner <;> rw [hinner] <;> nofun
      · have hstep : n.isStep := by
          rw [Node.isLoop_iff] at hloop
          rw [Node.isStep_iff]
          cases hcase : n.kind <;> simp_all
        have hnil : trees = [] := by
          rw [List.eq_nil_iff_forall_not_mem]
          intro u hu
          obtain ⟨q, child, hchild, hparent, -⟩ := htrees u hu
          have hq := h.mem_children.2 ⟨child, hchild, hparent⟩
          rw [h.wellFormed.step_children hn hstep] at hq
          cases hq
        rw [hnil]
        exact .step hstep

/-- Every node of a record has a tree, and the tree is that of a kernel, a loop, or a step. -/
theorem isRecord (h : c.IsArranged) {i : Nat} {n : Node} (hn : c.node? i = some n) :
    ∃ t, c.tree? i = some t ∧ t.root = n ∧ t.IsRecord := by
  obtain ⟨trees, hchildren, htree⟩ := h.wellFormed.tree_eq hn
  refine ⟨_, htree, rfl, ?_⟩
  by_cases hkernel : n.isKernel
  · obtain ⟨hone, grid, hgrid, hisGrid⟩ := h.wellFormed.kernel_children hn hkernel
    rw [hone] at hchildren
    obtain ⟨body, hbody, rfl⟩ : ∃ body, c.tree? (i + 1) = some body ∧ trees = [body] := by
      have hlength : trees.length = 1 := by simpa using congrArg List.length hchildren.symm
      obtain ⟨body, rfl⟩ := List.length_eq_one_iff.1 hlength
      exact ⟨body, by simpa using hchildren, rfl⟩
    refine .kernel hkernel (h.isBody hgrid ?_ hbody)
    rw [Node.isGridLoop_iff.1 hisGrid]
    nofun
  · exact .body (h.isBody hn (fun hkind => hkernel (Node.isKernel_iff.2 hkind)) htree)

end IsArranged

end Context

end TileTrace
