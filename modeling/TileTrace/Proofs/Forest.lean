import TileTrace.Tree

/-!
# Forests of parent links

When is `Tree.forest`, which reads a list of nodes with parent links as a forest,
an inverse of depth-first traversal? `Preordered` is the condition on the list:
every node that has a parent has one on the path that leads from the node before
it to a root. Then `forestToList_forest_drop` gives back the list, and every part
of it from some node on, from the trees. `forest_forestToList_append` is the
other direction: trees whose nodes are numbered in depth-first order and linked
to their parents are read from the list of their nodes.
-/

namespace TileTrace.Tree

/-! ## Adoption -/

/-- The nodes of two forests in a row. -/
@[simp] theorem forestToList_append (ts us : List Tree) :
    forestToList (ts ++ us) = forestToList ts ++ forestToList us := by
  induction ts with
  | nil => rfl
  | cons t ts ih => simp [forestToList, ih]

theorem forestToList_eq_flatMap (ts : List Tree) : forestToList ts = ts.flatMap toList := by
  induction ts with
  | nil => rfl
  | cons t ts ih => rw [forestToList, ih, List.flatMap_cons]

/-- A node takes the trees that name it as parent and leaves the others. -/
theorem adopt_eq (n : Node) (f : List Tree) :
    adopt n f = node n (f.filter fun t => t.root.parent = some n.id) ::
      f.filter fun t => t.root.parent ≠ some n.id := by
  simp [adopt, List.partition_eq_filter_filter, Function.comp_def]

/-- The first node of a list takes the trees that name it as parent. -/
theorem forest_cons (n : Node) (ns : List Node) :
    forest (n :: ns) = node n ((forest ns).filter fun t => t.root.parent = some n.id) ::
      (forest ns).filter fun t => t.root.parent ≠ some n.id :=
  adopt_eq n (forest ns)

@[simp] theorem root_node (n : Node) (children : List Tree) : (node n children).root = n := rfl

/-- Trees that do not name a node as parent stay where they are. -/
theorem adopt_append {n : Node} {f g : List Tree} (h : ∀ t ∈ g, t.root.parent ≠ some n.id) :
    adopt n (f ++ g) = adopt n f ++ g := by
  have hown : g.filter (fun t => decide (t.root.parent = some n.id)) = [] := by
    simpa using h
  have hothers : g.filter (fun t => decide (t.root.parent ≠ some n.id)) = g := by
    simpa using h
  rw [adopt_eq, adopt_eq, List.filter_append, List.filter_append, hown, hothers]
  simp

/-- Trees without parents stay where they are behind other nodes. -/
theorem forest_append {ns ms : List Node} (h : ∀ t ∈ forest ms, t.root.parent = none) :
    forest (ns ++ ms) = forest ns ++ forest ms := by
  induction ns with
  | nil => rfl
  | cons n ns ih =>
      have hparents : ∀ t ∈ forest ms, t.root.parent ≠ some n.id := by
        intro t ht
        rw [h t ht]
        nofun
      calc forest (n :: (ns ++ ms))
        _ = adopt n (forest ns ++ forest ms) := congrArg (adopt n) ih
        _ = adopt n (forest ns) ++ forest ms := adopt_append hparents

/-- Every root is one of the nodes. -/
theorem root_mem_of_mem_forest {ns : List Node} {t : Tree} (h : t ∈ forest ns) : t.root ∈ ns := by
  induction ns with
  | nil => cases h
  | cons n ns ih =>
      rw [forest_cons] at h
      obtain rfl | h := List.mem_cons.1 h
      · exact List.mem_cons_self
      · exact List.mem_cons_of_mem _ (ih (List.mem_filter.1 h).1)

/-- Every tree of a forest is the first tree of the nodes from its root on. -/
theorem exists_head_of_mem_forest {ns : List Node} {t : Tree} (h : t ∈ forest ns) :
    ∃ before after, ns = before ++ t.root :: after ∧
      (forest (t.root :: after)).head? = some t := by
  induction ns with
  | nil => cases h
  | cons n ns ih =>
      rw [forest_cons] at h
      obtain rfl | h := List.mem_cons.1 h
      · exact ⟨[], ns, rfl, by simp [forest_cons]⟩
      · obtain ⟨before, after, hns, hhead⟩ := ih (List.mem_filter.1 h).1
        exact ⟨n :: before, after, by rw [hns]; rfl, hhead⟩

/-- The nodes with a parent that is not among them are the roots with that parent, in order. -/
theorem filter_roots {ns : List Node} {parent : Option NodeId}
    (h : ∀ n ∈ ns, parent ≠ some n.id) :
    ((forest ns).filter fun t => t.root.parent = parent).map root =
      ns.filter fun n => n.parent = parent := by
  induction ns with
  | nil => rfl
  | cons n ns ih =>
      have hn : parent ≠ some n.id := h n List.mem_cons_self
      have hrest := ih fun m hm => h m (List.mem_cons_of_mem _ hm)
      have hkeep :
          ((forest ns).filter fun t => t.root.parent ≠ some n.id).filter
              (fun t => t.root.parent = parent) =
            (forest ns).filter fun t => t.root.parent = parent := by
        rw [List.filter_filter]
        refine List.filter_congr fun t _ => ?_
        by_cases ht : t.root.parent = parent
        · simp [ht, hn]
        · simp [ht]
      rw [forest_cons, List.filter_cons, List.filter_cons, root_node, hkeep]
      split
      · rw [List.map_cons, hrest, root_node]
      · exact hrest

/-! ## Reading a list of nodes -/

/-- The parents of nodes, by position. -/
def links (ns : List Node) : List (Option NodeId) :=
  ns.map (·.parent)

/-- A link is the parent of the node at its position. -/
theorem links_eq_some {ns : List Node} {i : Nat} {parent : Option NodeId} :
    (links ns)[i]? = some parent ↔ ∃ n, ns[i]? = some n ∧ n.parent = parent := by
  rw [links, List.getElem?_map, Option.map_eq_some_iff]

/-- Going from node `i` to its parent, to the parent of that, and so on leads to `p`. -/
inductive Above (parents : List (Option NodeId)) (p : Nat) : Nat → Prop where
  | self : Above parents p p
  | up {i q : Nat} : parents[i]? = some (some q) → Above parents p q → Above parents p i

/-- The path from the node before position `k` leads to `p`. -/
def OnPath (parents : List (Option NodeId)) (k p : Nat) : Prop :=
  ∃ j, k = j + 1 ∧ Above parents p j

/-- Nodes are numbered by position, and every parent lies on the path from the node before. -/
structure Preordered (ns : List Node) : Prop where
  id_eq : ∀ {i : Nat} {n : Node}, ns[i]? = some n → n.id = i
  parent_onPath : ∀ {i p : Nat}, (links ns)[i]? = some (some p) → OnPath (links ns) i p

namespace Above

variable {parents : List (Option NodeId)} {p q i : Nat}

/-- A path goes on from where another one ends. -/
theorem trans (h : Above parents p q) (hq : Above parents q i) : Above parents p i := by
  induction hq with
  | self => exact h
  | up hparent _ ih => exact .up hparent ih

/-- What is above a node is the node itself or above its parent. -/
theorem eq_or_parent (h : Above parents p i) :
    p = i ∨ ∃ q, parents[i]? = some (some q) ∧ Above parents p q := by
  cases h with
  | self => exact .inl rfl
  | up hparent h => exact .inr ⟨_, hparent, h⟩

/-- Paths stay when nodes are added at the end. -/
theorem append (h : Above parents p i) (more : List (Option NodeId)) :
    Above (parents ++ more) p i := by
  induction h with
  | self => exact .self
  | up hparent _ ih =>
      refine .up ?_ ih
      rw [List.getElem?_append_left (List.getElem?_eq_some_iff.1 hparent).1]
      exact hparent

end Above

/-- Paths stay when nodes are added at the end. -/
theorem OnPath.append {parents : List (Option NodeId)} {k p : Nat} (h : OnPath parents k p)
    (more : List (Option NodeId)) : OnPath (parents ++ more) k p := by
  obtain ⟨j, hj, habove⟩ := h
  exact ⟨j, hj, habove.append more⟩

namespace Preordered

variable {ns : List Node}

/-- Paths lead to smaller numbers. -/
theorem le_of_above (h : Preordered ns) {p i : Nat} (habove : Above (links ns) p i) : p ≤ i := by
  -- A parent lies on the path from the node before, so the induction is on the number where the
  -- path starts and not on the path.
  induction i using Nat.strongRecOn with
  | ind i ih =>
      obtain rfl | ⟨q, hparent, hrest⟩ := habove.eq_or_parent
      · exact Nat.le_refl _
      · obtain ⟨j, rfl, hq⟩ := h.parent_onPath hparent
        have hpj : p ≤ j := ih j (Nat.lt_succ_self j) (hrest.trans hq)
        omega

/-- A parent has a smaller number. -/
theorem parent_lt (h : Preordered ns) {i p : Nat} (hparent : (links ns)[i]? = some (some p)) :
    p < i := by
  obtain ⟨j, rfl, hp⟩ := h.parent_onPath hparent
  have := h.le_of_above hp
  omega

end Preordered

/-- The trees of a forest stand in the order of their parents, the latest parent first and trees
without a parent last. -/
def ParentsDescend (f : List Tree) : Prop :=
  f.Pairwise fun t u => ∀ p, u.root.parent = some p → ∃ q, t.root.parent = some q ∧ p ≤ q

/-- In a forest in the order of parents, the trees of the latest parent come first. -/
theorem ParentsDescend.filter_append_filter {f : List Tree} (h : ParentsDescend f) {k : Nat}
    (hle : ∀ t ∈ f, ∀ p : Nat, t.root.parent = some p → p ≤ k) :
    (f.filter fun t => t.root.parent = some k) ++ (f.filter fun t => t.root.parent ≠ some k) =
      f := by
  induction f with
  | nil => rfl
  | cons t f ih =>
      obtain ⟨hfirst, hrest⟩ := List.pairwise_cons.1 h
      by_cases ht : t.root.parent = some k
      · have := ih hrest fun u hu => hle u (List.mem_cons_of_mem _ hu)
        simpa [ht] using this
      · -- A later tree of `k` would have a parent after that of `t`, which is below `k`.
        have hnone : ∀ u ∈ f, u.root.parent ≠ some k := by
          intro u hu hparent
          obtain ⟨q, hq, hkq⟩ := hfirst u hu k hparent
          have hqk := hle t List.mem_cons_self q hq
          exact ht (hq.trans (congrArg some (Nat.le_antisymm hqk hkq)))
        have hown : f.filter (fun t => decide (t.root.parent = some k)) = [] := by
          simpa using hnone
        have hothers : f.filter (fun t => decide (t.root.parent ≠ some k)) = f := by
          simpa using hnone
        rw [List.filter_cons_of_neg (by simpa using ht),
          List.filter_cons_of_pos (by simpa using ht), hown, hothers, List.nil_append]

/-- What the forest of a part of the nodes looks like: its trees hold these nodes in order, the
roots hang on the path from the node before, and stand in the order of their parents. -/
structure ReadsBack (ns : List Node) (k : Nat) (part : List Node) : Prop where
  toList : forestToList (forest part) = part
  onPath : ∀ t ∈ forest part, ∀ p : Nat, t.root.parent = some p → OnPath (links ns) k p
  descend : ParentsDescend (forest part)

namespace Preordered

variable {ns : List Node}

/-- A node in front of a part keeps its shape. -/
theorem readsBack_cons (h : Preordered ns) {k : Nat} {n : Node} {part : List Node}
    (hn : ns[k]? = some n) (hpart : ReadsBack ns (k + 1) part) : ReadsBack ns k (n :: part) := by
  obtain ⟨htoList, honPath, hdescend⟩ := hpart
  have hid : n.id = k := h.id_eq hn
  have hlink : (links ns)[k]? = some n.parent := links_eq_some.2 ⟨n, hn, rfl⟩
  have habove : ∀ t ∈ forest part, ∀ p : Nat, t.root.parent = some p →
      Above (links ns) p k := by
    intro t ht p hp
    obtain ⟨j, hj, hpj⟩ := honPath t ht p hp
    obtain rfl : j = k := by omega
    exact hpj
  have hsplit := hdescend.filter_append_filter (k := k) fun t ht p hp =>
    h.le_of_above (habove t ht p hp)
  -- A tree that the node leaves hangs above the node, so on the path to the node's parent.
  have hleft : ∀ t ∈ forest part, t.root.parent ≠ some k → ∀ p : Nat, t.root.parent = some p →
      ∃ q : Nat, n.parent = some q ∧ Above (links ns) p q := by
    intro t ht hne p hp
    obtain rfl | ⟨q, hq, hpq⟩ := (habove t ht p hp).eq_or_parent
    · exact absurd hp hne
    · exact ⟨q, Option.some.inj (hlink.symm.trans hq), hpq⟩
  rw [← hid] at hsplit hleft
  refine ⟨?_, ?_, ?_⟩
  · rw [forest_cons, forestToList, toList, List.cons_append, ← forestToList_append, hsplit, htoList]
  · intro t ht p hp
    rw [forest_cons] at ht
    obtain rfl | ht := List.mem_cons.1 ht
    · exact h.parent_onPath (hlink.trans (congrArg some hp))
    · obtain ⟨ht, hne⟩ := List.mem_filter.1 ht
      obtain ⟨q, hq, hpq⟩ := hleft t ht (by simpa using hne) p hp
      obtain ⟨j, hj, hqj⟩ := h.parent_onPath (hlink.trans (congrArg some hq))
      exact ⟨j, hj, hpq.trans hqj⟩
  · rw [forest_cons]
    refine List.pairwise_cons.2 ⟨?_, hdescend.filter _⟩
    intro t ht p hp
    obtain ⟨ht, hne⟩ := List.mem_filter.1 ht
    obtain ⟨q, hq, hpq⟩ := hleft t ht (by simpa using hne) p hp
    exact ⟨q, hq, h.le_of_above hpq⟩

/-- The nodes from any position on are read back. -/
theorem readsBack_drop (h : Preordered ns) (k : Nat) : ReadsBack ns k (ns.drop k) := by
  induction hm : ns.length - k generalizing k with
  | zero =>
      rw [List.drop_eq_nil_of_le (by omega)]
      exact ⟨rfl, by simp [forest], .nil⟩
  | succ m ih =>
      have hk : k < ns.length := by omega
      rw [List.drop_eq_getElem_cons hk]
      exact h.readsBack_cons (List.getElem?_eq_getElem hk) (ih (k + 1) (by omega))

/-- Depth-first traversal gives back the nodes from any position on. -/
theorem forestToList_forest_drop (h : Preordered ns) (k : Nat) :
    forestToList (forest (ns.drop k)) = ns.drop k :=
  (h.readsBack_drop k).toList

/-- The roots of the whole forest have no parents. -/
theorem parent_root (h : Preordered ns) {t : Tree} (ht : t ∈ forest ns) :
    t.root.parent = none := by
  cases hparent : t.root.parent with
  | none => rfl
  | some p =>
      obtain ⟨j, hj, -⟩ := (h.readsBack_drop 0).onPath t ht p hparent
      omega

end Preordered

/-! ## Reading numbered trees -/

mutual
/-- The root hangs below the given parent, and the nodes are linked and numbered in depth-first
order from the given number on. -/
def Numbered (parent : Option NodeId) (start : Nat) : Tree → Prop
  | node n children => n.id = start ∧ n.parent = parent ∧
      ForestNumbered (some start) (start + 1) children

/-- The roots hang below the given parent, and the nodes are linked and numbered in depth-first
order from the given number on. -/
def ForestNumbered (parent : Option NodeId) (start : Nat) : List Tree → Prop
  | [] => True
  | t :: ts => Numbered parent start t ∧ ForestNumbered parent (start + t.toList.length) ts
end

/-- Numbered forests in a row. -/
theorem ForestNumbered.append {parent : Option NodeId} {start : Nat} {ts us : List Tree}
    (ht : ForestNumbered parent start ts)
    (hu : ForestNumbered parent (start + (forestToList ts).length) us) :
    ForestNumbered parent start (ts ++ us) := by
  induction ts generalizing start with
  | nil => simpa [forestToList] using hu
  | cons t ts ih =>
      refine ⟨ht.1, ih ht.2 ?_⟩
      simpa [forestToList, Nat.add_assoc] using hu

/-- The roots of a numbered forest have its parent. -/
theorem ForestNumbered.root_parent {parent : Option NodeId} {start : Nat} {ts : List Tree}
    (h : ForestNumbered parent start ts) : ∀ t ∈ ts, t.root.parent = parent := by
  induction ts generalizing start with
  | nil => exact fun _ ht => nomatch ht
  | cons t ts ih =>
      intro u hu
      obtain rfl | hu := List.mem_cons.1 hu
      · cases u with
        | node n children => exact h.1.2.1
      · exact ih h.2 u hu

mutual
/-- The nodes of a numbered tree are numbered as said, and hang below the parent or one another. -/
theorem Numbered.mem {parent : Option NodeId} {start : Nat} : ∀ {t : Tree},
    t.Numbered parent start → ∀ m ∈ t.toList, (start ≤ m.id ∧ m.id < start + t.toList.length) ∧
      (m.parent = parent ∨ ∃ p : Nat, m.parent = some p ∧ start ≤ p ∧ p < start + t.toList.length)
  | node n children, h, m, hm => by
      rw [toList, List.mem_cons] at hm
      obtain ⟨hid, hparent, hchildren⟩ := h
      simp only [toList, List.length_cons]
      obtain rfl | hm := hm
      · exact ⟨by lia, .inl hparent⟩
      · obtain ⟨hrange, hlink⟩ := ForestNumbered.mem hchildren m hm
        refine ⟨by lia, .inr ?_⟩
        obtain hlink | ⟨p, hp, hrange⟩ := hlink
        · exact ⟨start, hlink, by omega⟩
        · exact ⟨p, hp, by omega⟩

/-- The nodes of a numbered forest are numbered as said, and hang below the parent or one
another. -/
theorem ForestNumbered.mem {parent : Option NodeId} {start : Nat} : ∀ {ts : List Tree},
    ForestNumbered parent start ts → ∀ m ∈ forestToList ts,
      (start ≤ m.id ∧ m.id < start + (forestToList ts).length) ∧
      (m.parent = parent ∨
        ∃ p : Nat, m.parent = some p ∧ start ≤ p ∧ p < start + (forestToList ts).length)
  | [], _, _, hm => nomatch hm
  | t :: ts, h, m, hm => by
      rw [forestToList, List.mem_append] at hm
      simp only [forestToList, List.length_append]
      obtain hm | hm := hm
      · obtain ⟨hrange, hlink⟩ := Numbered.mem h.1 m hm
        exact ⟨by lia, hlink.imp id fun ⟨p, hp, hrange⟩ => ⟨p, hp, by omega⟩⟩
      · obtain ⟨hrange, hlink⟩ := ForestNumbered.mem h.2 m hm
        exact ⟨by lia, hlink.imp id fun ⟨p, hp, hrange⟩ => ⟨p, hp, by omega⟩⟩
end

/-- A tree of a forest without nodes that hang below it stays apart from the forest. -/
private theorem forest_node_cons {n : Node} {children f : List Tree} {ns : List Node}
    (hns : forest ns = children ++ f) (hchildren : ∀ t ∈ children, t.root.parent = some n.id)
    (hf : ∀ t ∈ f, t.root.parent ≠ some n.id) : forest (n :: ns) = node n children :: f := by
  have hown : children.filter (fun t => decide (t.root.parent ≠ some n.id)) = [] := by
    simpa using hchildren
  have hothers : f.filter (fun t => decide (t.root.parent = some n.id)) = [] := by
    simpa using hf
  rw [forest_cons, hns, List.filter_append, List.filter_append, hown, hothers, List.nil_append,
    List.append_nil, List.filter_eq_self.2 (by simpa using hchildren),
    List.filter_eq_self.2 (by simpa using hf)]

mutual
/-- A numbered tree is read back in front of nodes that do not hang below it. -/
theorem Numbered.forest_append {parent : Option NodeId} {start : Nat} : ∀ {t : Tree},
    t.Numbered parent start → (∀ p : Nat, parent = some p → p < start) → ∀ rest : List Node,
    (∀ m ∈ rest, ∀ p : Nat, m.parent = some p → p < start ∨ start + t.toList.length ≤ p) →
    forest (t.toList ++ rest) = t :: forest rest
  | node n children, h, _, rest, hrest => by
      obtain ⟨hid, -, hchildren⟩ := h
      simp only [toList, List.length_cons] at hrest
      have hforest := ForestNumbered.forest_append hchildren
        (fun p hp => by obtain rfl := Option.some.inj hp; omega) rest
        fun m hm p hp => by have := hrest m hm p hp; omega
      -- The trees after this one have their parents before or after it, so they stay out of it.
      refine forest_node_cons hforest (fun t ht => ?_) fun t ht hp => ?_
      · rw [hchildren.root_parent t ht, hid]
      · have := hrest t.root (root_mem_of_mem_forest ht) start (hid ▸ hp)
        omega

/-- A numbered forest is read back in front of nodes that do not hang below it. -/
theorem ForestNumbered.forest_append {parent : Option NodeId} {start : Nat} : ∀ {ts : List Tree},
    ForestNumbered parent start ts → (∀ p : Nat, parent = some p → p < start) →
    ∀ rest : List Node, (∀ m ∈ rest, ∀ p : Nat, m.parent = some p →
      p < start ∨ start + (forestToList ts).length ≤ p) →
    forest (forestToList ts ++ rest) = ts ++ forest rest
  | [], _, _, _, _ => rfl
  | t :: ts, h, hparent, rest, hrest => by
      simp only [forestToList, List.length_append] at hrest
      rw [forestToList, List.append_assoc, Numbered.forest_append h.1 hparent]
      · rw [ForestNumbered.forest_append h.2 (fun p hp => by have := hparent p hp; omega) rest
          fun m hm p hp => by have := hrest m hm p hp; omega]
        rfl
      · intro m hm p hp
        obtain hm | hm := List.mem_append.1 hm
        · obtain ⟨-, hlink | ⟨q, hq, hrange⟩⟩ := ForestNumbered.mem h.2 m hm
          · exact .inl (hparent p (hlink.symm.trans hp))
          · obtain rfl : q = p := Option.some.inj (hq.symm.trans hp)
            exact .inr hrange.1
        · have := hrest m hm p hp
          omega
end

end TileTrace.Tree
