import Mathlib.Data.List.Nodup
import TileTrace.Proofs.Forest
import TileTrace.Proofs.RecordTree

/-!
# Positions in a tree

Where does a tree occur in another one? `Tree.Occurs` goes down from the root and
collects the nodes that come before the tree in depth-first order and the nodes
above it. When no node comes twice, both are known from the root of the tree
alone: they are `Tree.before` and `Tree.isAbove`.
-/

namespace TileTrace.Tree

/-- The nodes before a node in depth-first order. -/
def before (t : Tree) (n : Node) : List Node :=
  t.toList.takeWhile (· ≠ n)

/-- Does the first node lie above the second one? -/
def isAbove (t : Tree) (m n : Node) : Bool :=
  t.subtrees.any fun u => u.root = m && n ∈ forestToList u.children

/-- A tree occurs in another one. The lists are the nodes before it in depth-first order and the
nodes above it, from the root down. -/
inductive Occurs (u : Tree) : Tree → List Node → List Node → Prop where
  | self : Occurs u u [] []
  | under {v : Tree} {pre path : List Node} (n : Node) (done rest : List Tree) :
      Occurs u v pre path →
      Occurs u (node n (done ++ v :: rest)) (n :: forestToList done ++ pre) (n :: path)

/-! ## Nodes below a node -/

theorem mem_forestSubtrees {u : Tree} {ts : List Tree} :
    u ∈ forestSubtrees ts ↔ ∃ t ∈ ts, u ∈ t.subtrees := by
  induction ts with
  | nil => simp [forestSubtrees]
  | cons t ts ih => simp [forestSubtrees, ih]

theorem mem_forestToList {n : Node} {ts : List Tree} :
    n ∈ forestToList ts ↔ ∃ t ∈ ts, n ∈ t.toList := by
  rw [forestToList_eq_flatMap, List.mem_flatMap]

theorem isAbove_iff {t : Tree} {m k : Node} :
    t.isAbove m k = true ↔ ∃ u ∈ t.subtrees, u.root = m ∧ k ∈ forestToList u.children := by
  simp [isAbove]

theorem mem_toList_of_mem_children {k : Node} {t : Tree} (h : k ∈ forestToList t.children) :
    k ∈ t.toList := by
  cases t with
  | node n children => exact List.mem_cons_of_mem n h

/-- A node lies above those below it, and above those that it lies above in the tree of a child. -/
theorem isAbove_node {n m k : Node} {children : List Tree} :
    (node n children).isAbove m k = true ↔
      n = m ∧ k ∈ forestToList children ∨ ∃ t ∈ children, t.isAbove m k = true := by
  simp only [isAbove_iff, subtrees, List.mem_append, List.mem_singleton, mem_forestSubtrees]
  constructor
  · rintro ⟨u, ⟨t, ht, hu⟩ | rfl, habove⟩
    · exact .inr ⟨t, ht, u, hu, habove⟩
    · exact .inl habove
  · rintro (habove | ⟨t, ht, u, hu, habove⟩)
    · exact ⟨_, .inr rfl, habove⟩
    · exact ⟨u, .inl ⟨t, ht, hu⟩, habove⟩

mutual
/-- What lies below a node is a node of the tree. -/
theorem mem_of_isAbove {m k : Node} : ∀ {t : Tree}, t.isAbove m k = true →
    k ∈ forestToList t.children
  | node n children, h => by
      obtain ⟨-, hk⟩ | h := isAbove_node.1 h
      · exact hk
      · exact mem_of_forest_isAbove h

/-- What lies below a node of a forest is a node of the forest. -/
theorem mem_of_forest_isAbove {m k : Node} : ∀ {ts : List Tree},
    (∃ t ∈ ts, t.isAbove m k = true) → k ∈ forestToList ts
  | [], h => by simp at h
  | t :: ts, h => by
      rw [forestToList, List.mem_append]
      obtain h | h := (List.exists_mem_cons_iff _ _ _).1 h
      · exact .inl (mem_toList_of_mem_children (mem_of_isAbove h))
      · exact .inr (mem_of_forest_isAbove h)
end

/-! ## Occurrences -/

/-- The list before the first place of an element. -/
theorem takeWhile_ne_append_cons {n : Node} {pre post : List Node} (h : n ∉ pre) :
    (pre ++ n :: post).takeWhile (· ≠ n) = pre := by
  rw [List.takeWhile_append_of_pos, List.takeWhile_cons_of_neg, List.append_nil]
  · simp
  · intro m hm
    simpa using fun hmn : m = n => h (hmn ▸ hm)

namespace Occurs

variable {t u : Tree} {pre path : List Node}

/-- The tree of a child occurs after the trees of the children before it. -/
theorem child {n : Node} {done rest : List Tree}
    (h : (node n (done ++ u :: rest)).Occurs t pre path) :
    u.Occurs t (pre ++ n :: forestToList done) (path ++ [n]) := by
  induction h with
  | self => simpa using Occurs.self.under n done rest
  | under m before after _ ih => simpa using ih.under m before after

/-- The nodes of a tree stand together. -/
theorem exists_toList_eq (h : u.Occurs t pre path) :
    ∃ post, t.toList = pre ++ u.toList ++ post := by
  induction h with
  | self => exact ⟨[], by simp⟩
  | under n done rest _ ih =>
      obtain ⟨post, hpost⟩ := ih
      exact ⟨post ++ forestToList rest, by simp [toList, forestToList, hpost]⟩

/-- What lies above a tree comes before it. -/
theorem mem_pre (h : u.Occurs t pre path) {m : Node} (hm : m ∈ path) : m ∈ pre := by
  induction h with
  | self => cases hm
  | under n done rest _ ih =>
      obtain rfl | hm := List.mem_cons.1 hm
      · exact List.mem_cons_self
      · exact List.mem_append_right _ (ih hm)

/-- The root of a tree is among the nodes of the tree around it. -/
theorem root_mem (h : u.Occurs t pre path) : u.root ∈ t.toList := by
  obtain ⟨post, hpost⟩ := h.exists_toList_eq
  cases u with
  | node n children => simp [hpost, toList]

/-- The nodes before a tree are those before its root. -/
theorem before_root (h : u.Occurs t pre path) (hnodup : t.toList.Nodup) :
    t.before u.root = pre := by
  obtain ⟨post, hpost⟩ := h.exists_toList_eq
  cases u with
  | node n children =>
      have hsplit : t.toList = pre ++ n :: (forestToList children ++ post) := by
        simp [hpost, toList]
      have hn : n ∉ pre := fun hmem =>
        (List.nodup_append.1 (hsplit ▸ hnodup)).2.2 n hmem n List.mem_cons_self rfl
      rw [before, hsplit, root_node, takeWhile_ne_append_cons hn]

/-- The nodes above a tree are those above its root. -/
theorem isAbove_root (h : u.Occurs t pre path) (hnodup : t.toList.Nodup) {m : Node} :
    t.isAbove m u.root = true ↔ m ∈ path := by
  induction h with
  | self =>
      cases u with
      | node n children =>
          have hn : n ∉ forestToList children := (List.nodup_cons.1 hnodup).1
          simpa using fun habove => hn (mem_of_isAbove habove)
  | @under v pre path n done rest hv ih =>
      simp only [toList, forestToList_append, forestToList] at hnodup
      obtain ⟨-, hnodup⟩ := List.nodup_cons.1 hnodup
      obtain ⟨-, hnodup, hdone⟩ := List.nodup_append.1 hnodup
      obtain ⟨hnodup, -, hrest⟩ := List.nodup_append.1 hnodup
      have hmem := hv.root_mem
      rw [isAbove_node, List.mem_cons, ← ih hnodup]
      constructor
      · rintro (⟨rfl, -⟩ | ⟨w, hw, habove⟩)
        · exact .inl rfl
        · -- The root is in no other child's tree.
          have hk : u.root ∈ w.toList := mem_toList_of_mem_children (mem_of_isAbove habove)
          obtain hw | hw := List.mem_append.1 hw
          · exact absurd rfl (hdone _ (mem_forestToList.2 ⟨w, hw, hk⟩) _
              (List.mem_append_left _ hmem))
          · obtain rfl | hw := List.mem_cons.1 hw
            · exact .inr habove
            · exact absurd rfl (hrest _ hmem _ (mem_forestToList.2 ⟨w, hw, hk⟩))
      · rintro (rfl | habove)
        · refine .inl ⟨rfl, ?_⟩
          simp [forestToList, hmem]
        · exact .inr ⟨v, by simp, habove⟩

end Occurs

end TileTrace.Tree
