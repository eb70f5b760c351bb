import TileTrace.Proofs.Ancestors
import TileTrace.Proofs.RecordTree

/-!
# Records as lines

A tree is shown line by line, with a node further to the right the deeper it
stands in the tree. `Context.IsArranged.linesAt_eq` says that this is the depth
of the node in the record, and `text_eq` that a whole record shows its nodes in
the order of their numbers.
-/

namespace TileTrace

open TileTrace.Tree

theorem Tree.forestLinesAt_eq_flatMap (level : Nat) (ts : List Tree) :
    forestLinesAt level ts = ts.flatMap (linesAt level) := by
  induction ts with
  | nil => rfl
  | cons t ts ih => rw [forestLinesAt, ih, List.flatMap_cons]

/-- An indented line starts with two spaces per level. -/
theorem Tree.indented_eq (level : Nat) (line : String) :
    indented level line = String.ofList (List.replicate (2 * level) ' ') ++ line := by
  have hspaces : (String.join (List.replicate level "  ")).toList =
      List.replicate (2 * level) ' ' := by
    induction level with
    | zero => rfl
    | succ level ih =>
        rw [String.toList_join] at ih ⊢
        rw [List.replicate_succ, List.flatMap_cons, ih, Nat.mul_succ, Nat.add_comm,
          ← List.replicate_append_replicate]
        rfl
  rw [indented, ← hspaces, String.ofList_toList]

/-- The text of a node starts with its kind. -/
theorem Node.exists_head (n : Node) :
    ∃ first, n.text.toList.head? = some first ∧ first.isUpper = true := by
  have hpayload : ∃ first, n.payload.text.toList.head? = some first ∧ first.isUpper = true := by
    cases n.payload with
    | kernel name inputs outputs => exact ⟨'K', by simp [Payload.text], by decide⟩
    | loop kind induction extent =>
        cases kind with
        | grid => exact ⟨'G', by simp [Payload.text], by decide⟩
        | nested => exact ⟨'L', by simp [Payload.text], by decide⟩
    | step origin definitionId inputs outputs => exact ⟨'S', by simp [Payload.text], by decide⟩
  obtain ⟨first, hfirst, hupper⟩ := hpayload
  exact ⟨first, by simp [text, hfirst], hupper⟩

namespace Context

variable {c : Context}

/-- A lineage is a node and what is above it. -/
theorem length_lineage_eq (c : Context) (n : Node) : (c.lineage n).length = c.depthOf n + 1 := by
  rw [lineage, List.length_cons, depthOf]

namespace IsArranged

/-- A node without a parent has nothing above it. -/
theorem depthOf_root (h : c.IsArranged) {i : Nat} {n : Node} (hn : c.node? i = some n)
    (hparent : n.parent = none) : c.depthOf n = 0 := by
  have hlength := c.length_lineage_eq n
  rw [h.lineage_root hn hparent, List.length_singleton] at hlength
  omega

/-- A node is one level below its parent. -/
theorem depthOf_child (h : c.IsArranged) {i p : Nat} {n outer : Node} (hn : c.node? i = some n)
    (hparent : n.parent = some p) (houter : c.node? p = some outer) :
    c.depthOf n = c.depthOf outer + 1 := by
  have hlength := c.length_lineage_eq n
  rw [h.lineage_child hn hparent houter, List.length_cons, length_lineage_eq] at hlength
  omega

/-- The lines of a tree are the texts of its nodes, indented by how far they are below the root. -/
theorem linesAt_eq (h : c.IsArranged) (base : Nat) {i level : Nat} {n : Node} {t : Tree}
    (hn : c.node? i = some n) (ht : c.tree? i = some t) (hlevel : c.depthOf n = base + level) :
    t.linesAt level = t.toList.map fun m => indented (c.depthOf m - base) m.text := by
  -- Children come later, so the induction is on the number of nodes after this one.
  induction hrest : c.size - i using Nat.strongRecOn generalizing i level n t with
  | ind rest ih =>
      obtain ⟨trees, htree, htrees⟩ := h.exists_children hn
      obtain rfl := Option.some.inj (ht.symm.trans htree)
      have hlines : ∀ u ∈ trees, u.linesAt (level + 1) =
          u.toList.map fun m => indented (c.depthOf m - base) m.text := by
        intro u hu
        obtain ⟨q, child, hchild, hparent, hqu⟩ := htrees u hu
        have hiq : i < q := h.lt_of_parent hchild hparent
        have hq : q < c.size := (Array.getElem?_eq_some_iff.1 hchild).1
        refine ih (c.size - q) (by omega) hchild hqu ?_ rfl
        rw [h.depthOf_child hchild hparent hn, hlevel, Nat.add_assoc]
      rw [linesAt, toList, List.map_cons, forestLinesAt_eq_flatMap, forestToList_eq_flatMap,
        List.map_flatMap, hlevel, Nat.add_sub_cancel_left, List.flatMap_def, List.flatMap_def,
        List.map_congr_left hlines]

/-- The text of a record is that of its nodes in order, a line each, indented by depth. -/
theorem text_eq (h : c.IsArranged) : c.text =
    String.join (c.nodes.toList.map fun n => indented (c.depthOf n) n.text ++ "\n") := by
  have hlines : ∀ t ∈ c.forest, t.lines.map (· ++ "\n") =
      t.toList.map fun n => indented (c.depthOf n) n.text ++ "\n" := by
    intro t ht
    have htree := h.tree?_root (k := 0) ht
    have hroot := h.node?_of_mem (root_mem_of_mem_forest ht)
    have hdepth := h.depthOf_root hroot (h.preordered.parent_root ht)
    rw [lines, h.linesAt_eq 0 hroot htree (by rw [hdepth]), List.map_map]
    rfl
  have htoList : c.forest.flatMap toList = c.nodes.toList := by
    rw [← forestToList_eq_flatMap]
    exact h.preordered.forestToList_forest_drop 0
  rw [text, List.flatMap_def, List.map_congr_left hlines, ← List.flatMap_def, ← htoList,
    List.map_flatMap]

end IsArranged

end Context

end TileTrace
