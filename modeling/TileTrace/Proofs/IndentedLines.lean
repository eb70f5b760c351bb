import TileTrace.Proofs.TreeLines

/-!
# What indentation says

Three walks agree on every tree of a record. Going down the children, with two more
spaces a level, gives its lines. Going down the children gives its nodes. And
going up the parents gives the depth of a node. `ShownByDepth` lists how they go
together, and `history_shownByDepth`, the main theorem, says that they do on the
tree below every node. Since a tree takes up consecutive numbers, all that stands
between a node and its parent is further to the right than the parent. So the
parent of a line is the nearest line before it that is indented one level less.
-/

namespace TileTrace

open TileTrace.Tree

/-! ## Reading indentation -/

/-- The number of spaces that a line starts with. -/
def indentation (line : String) : Nat :=
  (line.toList.takeWhile (· = ' ')).length

/-- The last line among the first ones that has two spaces less than the given width. -/
def outerLine (widths : List Nat) (width : Nat) : Nat → Option Nat
  | 0 => none
  | k + 1 => if widths.getD k 0 + 2 = width then some k else outerLine widths width k

/-- It is a line with two spaces less behind which there is no other one. -/
theorem outerLine_eq_some {widths : List Nat} {width k j : Nat} (hk : k < j)
    (hwidth : widths.getD k 0 + 2 = width)
    (hbetween : ∀ q, k < q → q < j → widths.getD q 0 + 2 ≠ width) :
    outerLine widths width j = some k := by
  induction j with
  | zero => omega
  | succ j ih =>
      rw [outerLine]
      obtain rfl | hkj := Nat.eq_or_lt_of_le (Nat.le_of_lt_succ hk)
      · rw [if_pos hwidth]
      · rw [if_neg (hbetween j hkj (Nat.lt_succ_self j))]
        exact ih hkj fun q hkq hq => hbetween q hkq (Nat.lt_succ_of_lt hq)

example : outerLine [0, 2, 4, 2, 4] 4 4 = some 3 := by decide

namespace Tree

/-- The indentation of the line of a node is read off the line, as no text starts with a space. -/
theorem indentation_indented (level : Nat) (n : Node) :
    indentation (indented level n.text) = 2 * level := by
  obtain ⟨first, hfirst, hupper⟩ := n.exists_head
  obtain ⟨rest, hrest⟩ := List.head?_eq_some_iff.1 hfirst
  have hspace : first ≠ ' ' := fun h => absurd (h ▸ hupper) (by decide)
  rw [indentation, indented_eq, String.toList_append, String.toList_ofList, hrest,
    List.takeWhile_append_of_pos (by simp), List.takeWhile_cons_of_neg (by simpa using hspace),
    List.append_nil, List.length_replicate]

end Tree

namespace Context

variable {c : Context}

namespace IsArranged

/-! ## A tree takes up consecutive numbers -/

/-- The nodes of a tree are those from its root on. -/
theorem node?_of_toList (h : c.IsArranged) {i j : Nat} {t : Tree} {m : Node}
    (ht : c.tree? i = some t) (hm : t.toList[j]? = some m) : c.node? (i + j) = some m := by
  obtain ⟨rest, hrest⟩ := h.toList_isPrefix ht
  have hdrop : (t.toList ++ rest)[j]? = some m := getElem?_append_of_eq_some hm
  rwa [hrest, List.getElem?_drop, Array.getElem?_toList] at hdrop

/-- A node with the root of a tree in its lineage stands in the tree where its number says. -/
theorem toList_of_mem_lineage (h : c.IsArranged) {i j : Nat} {t : Tree} {m : Node}
    (ht : c.tree? i = some t) (hm : c.node? j = some m) (hmem : i ∈ c.lineage m) :
    ∃ k, j = i + k ∧ t.toList[k]? = some m := by
  obtain ⟨k, hk⟩ := List.mem_iff_getElem?.1 ((h.mem_toList_iff ht).2 ⟨j, hm, hmem⟩)
  refine ⟨k, ?_, hk⟩
  rw [← h.id_eq hm, h.id_eq (h.node?_of_toList ht hk)]

/-- The nodes of a tree are numbered without a gap. -/
theorem map_id_toList (h : c.IsArranged) {i : Nat} {t : Tree} (ht : c.tree? i = some t) :
    t.toList.map (·.id) = List.range' i t.toList.length := by
  refine List.ext_getElem? fun j => ?_
  rw [List.getElem?_map]
  cases hm : t.toList[j]? with
  | none =>
      have hlength := List.getElem?_eq_none_iff.1 hm
      rw [List.getElem?_eq_none (by rwa [List.length_range'])]
      rfl
  | some m =>
      have hj : j < t.toList.length := (List.getElem?_eq_some_iff.1 hm).1
      rw [List.getElem?_range' hj, Nat.one_mul, Option.map_some, h.id_eq (h.node?_of_toList ht hm)]

/-! ## Depths within a tree -/

/-- A node in a lineage is less deep, or is the node itself. -/
theorem eq_or_depthOf_lt (h : c.IsArranged) {i j : Nat} {n m : Node} (hn : c.node? i = some n)
    (hm : c.node? j = some m) (hmem : i ∈ c.lineage m) : i = j ∨ c.depthOf n < c.depthOf m := by
  refine h.parent_induction
    (P := fun j m => i ∈ c.lineage m → i = j ∨ c.depthOf n < c.depthOf m) ?_ ?_ hm hmem
  · intro j m hm hparent hmem
    rw [h.lineage_root hm hparent, List.mem_singleton] at hmem
    exact .inl hmem
  · intro j m p outer hm hparent houter ih hmem
    rw [h.lineage_child hm hparent houter, List.mem_cons] at hmem
    have hdepth := h.depthOf_child hm hparent houter
    obtain rfl | hmem := hmem
    · exact .inl rfl
    · obtain rfl | hlt := ih hmem
      · obtain rfl := Option.some.inj (hn.symm.trans houter)
        exact .inr (by omega)
      · exact .inr (by omega)

/-- No node of a tree is less deep than its root. -/
theorem depthOf_le (h : c.IsArranged) {i j : Nat} {n m : Node} (hn : c.node? i = some n)
    (hm : c.node? j = some m) (hmem : i ∈ c.lineage m) : c.depthOf n ≤ c.depthOf m := by
  obtain rfl | hlt := h.eq_or_depthOf_lt hn hm hmem
  · obtain rfl := Option.some.inj (hn.symm.trans hm)
    exact Nat.le_refl _
  · exact Nat.le_of_lt hlt

/-- What is numbered between a node and a node below it is below the first one. -/
theorem mem_lineage_between (h : c.IsArranged) {p q j : Nat} {between m : Node}
    (hm : c.node? j = some m) (hmem : p ∈ c.lineage m) (hpq : p ≤ q) (hqj : q ≤ j)
    (hbetween : c.node? q = some between) : p ∈ c.lineage between := by
  have hp : p < c.size := by
    have hsize : q < c.size := (Array.getElem?_eq_some_iff.1 hbetween).1
    omega
  obtain ⟨t, ht, -, -⟩ := h.isRecord (Array.getElem?_eq_getElem hp)
  obtain ⟨k, rfl, hk⟩ := h.toList_of_mem_lineage ht hm hmem
  have hlength : k < t.toList.length := (List.getElem?_eq_some_iff.1 hk).1
  have hq : t.toList[q - p]? = some t.toList[q - p] := List.getElem?_eq_getElem (by omega)
  have hnode := h.node?_of_toList ht hq
  rw [Nat.add_sub_of_le hpq] at hnode
  obtain rfl := Option.some.inj (hbetween.symm.trans hnode)
  obtain ⟨q', hq', hbelow⟩ := (h.mem_toList_iff ht).1 (List.mem_of_getElem? hq)
  exact hbelow

end IsArranged

/-! ## Lines, nodes, and depths -/

/-- How the lines of the tree below a node, the nodes of the tree, and their depths go together. -/
structure ShownByDepth (c : Context) (root : Node) (t : Tree) : Prop where
  /-- The nodes are numbered from the root on, without a gap. -/
  ids : t.toList.map (·.id) = List.range' root.id t.toList.length
  /-- The way up from a node ends, after as many parents as its depth. -/
  depth : ∀ m ∈ t.toList, ∃ path, c.Climbs m.id path ∧ path.length = c.depthOf m + 1
  /-- No node is less deep than the root. -/
  root_le : ∀ m ∈ t.toList, c.depthOf root ≤ c.depthOf m
  /-- There is one line a node, indented by two spaces for every level below the root. -/
  lines : t.lines = t.toList.map fun m =>
    String.ofList (List.replicate (2 * (c.depthOf m - c.depthOf root)) ' ') ++ m.text
  /-- The parent of a node is that of the nearest line before that is indented one level less. Such
  a line is missing for the root only. -/
  parent : ∀ (j : Nat) (m : Node), t.toList[j]? = some m →
    let widths := t.lines.map indentation
    (outerLine widths (widths.getD j 0) j).map (root.id + ·) = if j = 0 then none else m.parent

namespace IsArranged

variable {i : Nat} {n : Node} {t : Tree}

/-- The lines of a tree are its nodes, indented by their depth below the root. -/
theorem lines_eq (h : c.IsArranged) (hn : c.node? i = some n) (ht : c.tree? i = some t) :
    t.lines = t.toList.map fun m => indented (c.depthOf m - c.depthOf n) m.text :=
  h.linesAt_eq (c.depthOf n) hn ht rfl

/-- The indentation of a line tells the depth of its node. -/
theorem indentation_line (h : c.IsArranged) (hn : c.node? i = some n) (ht : c.tree? i = some t)
    {j : Nat} {m : Node} (hm : t.toList[j]? = some m) :
    (t.lines.map indentation).getD j 0 = 2 * (c.depthOf m - c.depthOf n) := by
  rw [h.lines_eq hn ht, List.map_map, List.getD_eq_getElem?_getD, List.getElem?_map, hm,
    Option.map_some, Option.getD_some, Function.comp_apply, indentation_indented]

/-- The line of the parent is the nearest one before that is indented one level less. -/
theorem outerLine_eq (h : c.IsArranged) (hn : c.node? i = some n) (ht : c.tree? i = some t)
    {j : Nat} {m : Node} (hm : t.toList[j]? = some m) (hj : j ≠ 0) :
    ∃ k, outerLine (t.lines.map indentation) (2 * (c.depthOf m - c.depthOf n)) j = some k ∧
      m.parent = some (i + k) := by
  have hnode := h.node?_of_toList ht hm
  obtain ⟨j', hj', hmem⟩ := (h.mem_toList_iff ht).1 (List.mem_of_getElem? hm)
  obtain rfl : j' = i + j := (h.id_eq hj').symm.trans (h.id_eq hnode)
  cases hparent : m.parent with
  | none =>
      rw [h.lineage_root hnode hparent, List.mem_singleton] at hmem
      omega
  | some p =>
      obtain ⟨outer, houter⟩ := h.exists_outer hnode hparent
      have hlineage := h.lineage_child hnode hparent houter
      rw [hlineage, List.mem_cons] at hmem
      have hbelow : i ∈ c.lineage outer := hmem.resolve_left (by omega)
      obtain ⟨k, rfl, hk⟩ := h.toList_of_mem_lineage ht houter hbelow
      have hlt : k < j := by
        have := h.lt_of_parent hnode hparent
        omega
      have hdepth := h.depthOf_child hnode hparent houter
      have hroot := h.depthOf_le hn houter hbelow
      refine ⟨k, outerLine_eq_some hlt ?_ ?_, rfl⟩
      · rw [h.indentation_line hn ht hk]
        omega
      · intro q hkq hqj
        have hlength : j < t.toList.length := (List.getElem?_eq_some_iff.1 hm).1
        have hq : t.toList[q]? = some t.toList[q] := List.getElem?_eq_getElem (by omega)
        have hbetween := h.node?_of_toList ht hq
        -- The parent is above every node after it, up to the node, so they are deeper.
        have houterMem : i + k ∈ c.lineage m := by
          rw [hlineage, lineage, h.id_eq houter]
          simp
        have habove := h.mem_lineage_between hnode houterMem (by omega) (by omega) hbetween
        have hdeeper := (h.eq_or_depthOf_lt houter hbetween habove).resolve_left (by omega)
        rw [h.indentation_line hn ht hq]
        omega

/-- The tree below a node of an arranged context shows the depths of its nodes. -/
theorem shownByDepth (h : c.IsArranged) (hn : c.node? i = some n) (ht : c.tree? i = some t) :
    c.ShownByDepth n t where
  ids := h.id_eq hn ▸ h.map_id_toList ht
  depth m hm := by
    obtain ⟨j, hj, -⟩ := (h.mem_toList_iff ht).1 hm
    exact ⟨c.lineage m, h.id_eq hj ▸ h.climbs_lineage hj, c.length_lineage_eq m⟩
  root_le m hm := by
    obtain ⟨j, hj, hmem⟩ := (h.mem_toList_iff ht).1 hm
    exact h.depthOf_le hn hj hmem
  lines := by
    rw [h.lines_eq hn ht]
    exact List.map_congr_left fun m _ => indented_eq _ m.text
  parent j m hm := by
    dsimp only
    rw [h.indentation_line hn ht hm]
    split
    · next hj => subst hj; rfl
    · next hj =>
        obtain ⟨k, hk, hparent⟩ := h.outerLine_eq hn ht hm hj
        rw [hk, hparent, Option.map_some, h.id_eq hn]

end IsArranged

/-- After every history, the tree below every node shows the depths of its nodes: a line a node, in
the order of their numbers, from which their parents can be read. -/
theorem history_shownByDepth (id : ContextId) (history : History) {i : Nat} {n : Node}
    (hn : ((fresh id).after history).node? i = some n) :
    ∃ t, ((fresh id).after history).tree? i = some t ∧ ((fresh id).after history).Spans i t ∧
      ((fresh id).after history).ShownByDepth n t := by
  have h := isArranged_after id history
  obtain ⟨t, ht, -, -⟩ := h.isRecord hn
  exact ⟨t, ht, h.spans ht hn, h.shownByDepth hn ht⟩

/-- A grid loop with a loop, and with another loop that has one inside. -/
theorem history_shownByDepth_siblings :
    let history : History := [(0, .openKernel "copy" .unbound none), (0, .openLoop none),
      (0, .closeLoop), (0, .openLoop none), (0, .openLoop none)]
    ∃ n t, ((fresh 0).after history).node? 1 = some n ∧
      ((fresh 0).after history).tree? 1 = some t ∧ ((fresh 0).after history).Spans 1 t ∧
      ((fresh 0).after history).ShownByDepth n t := by
  intro history
  obtain ⟨n, hn⟩ : ∃ n, ((fresh 0).after history).node? 1 = some n := ⟨_, rfl⟩
  obtain ⟨t, ht, hspans, hshown⟩ := history_shownByDepth 0 history hn
  exact ⟨n, t, hn, ht, hspans, hshown⟩

end Context

end TileTrace
