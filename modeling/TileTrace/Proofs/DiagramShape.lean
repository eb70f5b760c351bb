import Mathlib.Data.List.Nodup
import TileTrace.Diagram.Flatten
import TileTrace.Proofs.RecordTree

/-!
# The shape of a diagram

What does `Diagram.flatten` draw? `Diagram.Depicts` says it without the walk: the
drawn nodes are those of the tree that are not hidden, in depth-first order; each
is connected to the next; and a drawn loop has an edge from the last node drawn
for its body. The walk hands on what to connect to next. That this is always the
node drawn last, whatever is hidden, is what `Extends` carries through the tree.
Labels of edges are left open.
-/

namespace TileTrace

open TileTrace.Tree

namespace Tree

/-- The nodes of a tree that are drawn, in depth-first order. -/
def drawn (t : Tree) : List Node :=
  t.toList.filter (·.visualize)

/-- The nodes of a forest that are drawn, in depth-first order. -/
def forestDrawn (ts : List Tree) : List Node :=
  (forestToList ts).filter (·.visualize)

@[simp] theorem forestDrawn_nil : forestDrawn [] = [] := rfl

@[simp] theorem forestDrawn_cons (t : Tree) (ts : List Tree) :
    forestDrawn (t :: ts) = t.drawn ++ forestDrawn ts := by
  rw [forestDrawn, forestToList, List.filter_append]
  rfl

theorem drawn_node (n : Node) (children : List Tree) :
    (node n children).drawn = (if n.visualize then [n] else []) ++ forestDrawn children := by
  rw [drawn, toList, List.filter_cons]
  split
  · rfl
  · rfl

/-- The back edge of a tree when drawn nodes are numbered as listed. A drawn loop has one if a node
below it is drawn, and it comes from the last of these. -/
def backEdge? (all : List Node) : Tree → Option DrawnEdge
  | node n children =>
      if n.isLoop && n.visualize then
        (forestDrawn children).getLast?.map fun last => ⟨all.idxOf last, all.idxOf n, none, false⟩
      else none

end Tree

namespace Diagram

/-- A diagram that shows the given nodes and has the given back edges. -/
structure Depicts (d : Diagram) (shown : List Node) (back : List DrawnEdge) : Prop where
  /-- The nodes are numbered in order, and loops are diamonds. -/
  nodes : d.nodes = shown.mapIdx fun i n =>
    ⟨i, n.label, if n.isLoop then .diamond else .box, n.id⟩
  /-- The nodes are on one line. -/
  sameRank : d.sameRank = (List.range shown.length).map fun i : Nat => (i : Int)
  /-- Each node but the first has one edge that constrains the layout, from the node before. -/
  path : (d.edges.filter (·.constraint)).map (fun edge => (edge.start, edge.target)) =
    (List.range (shown.length - 1)).map fun j : Nat => ((j : Int), (j : Int) + 1)
  /-- The other edges are the back edges. -/
  back : (d.edges.filter fun edge => !edge.constraint) = back

/-- The number of the latest of so many drawn nodes. -/
def lastNumber : Nat → Option Nat
  | 0 => none
  | count + 1 => some count

namespace Depicts

variable {d : Diagram} {shown : List Node} {back : List DrawnEdge}

/-- The empty diagram shows nothing. -/
theorem empty : Depicts {} [] [] where
  nodes := rfl
  sameRank := rfl
  path := rfl
  back := rfl

theorem length_nodes (h : Depicts d shown back) : d.nodes.length = shown.length := by
  rw [h.nodes, List.length_mapIdx]

/-- Drawing a node after the latest one shows one node more. -/
theorem draw (h : Depicts d shown back) (n : Node) (label : Option String) :
    Depicts (d.draw n (lastNumber shown.length) label) (shown ++ [n]) back := by
  have hlength := h.length_nodes
  have hpath := h.path
  unfold Diagram.draw
  refine ⟨?_, ?_, ?_, ?_⟩
  · simp [List.mapIdx_append, ← h.nodes, hlength]
  · simp [h.sameRank, hlength, List.range_succ]
  · cases hcount : shown.length with
    | zero =>
        rw [hcount] at hpath
        simpa [lastNumber, hcount] using hpath
    | succ count =>
        rw [hcount] at hpath
        simp [lastNumber, hcount, hpath, hlength, List.range_succ]
  · rw [← h.back]
    cases shown.length <;> simp [lastNumber]

/-- Closing a loop adds its back edge. -/
theorem closeLoop (h : Depicts d shown back) {loop last : Nat} (hlt : loop < last) :
    Depicts (closeLoop d (some loop) (some last)) shown
      (back ++ [⟨last, loop, none, false⟩]) := by
  have hne : last ≠ loop := by omega
  rw [Diagram.closeLoop, if_neg hne]
  refine ⟨h.nodes, h.sameRank, ?_, ?_⟩
  · simpa using h.path
  · simp [h.back]

end Depicts

/-! ## Unfolding the walk -/

/-- A visit of a loop that is shown draws it, draws its body as a chain, and closes it. -/
theorem visit_shown_loop (d : Diagram) (previous : Option Nat) (label : Option String) {n : Node}
    (hloop : n.isLoop) (hshown : n.visualize) (children : List Tree) :
    let own := some d.nodes.length
    let chain := visitChain (d.draw n previous label) ⟨own, none, n.target, none⟩ children
    visit d previous label (.node n children) =
      (⟨chain.1.lastDrawn.or own, chain.1.produced⟩, closeLoop chain.2 own chain.1.lastDrawn) := by
  simp [visit, hloop, hshown]

/-- A visit of a hidden loop draws its body as a part of the chain around it. -/
theorem visit_hidden_loop (d : Diagram) (previous : Option Nat) (label : Option String) {n : Node}
    (hloop : n.isLoop) (hshown : ¬n.visualize) (children : List Tree) :
    let chain := visitChain d ⟨previous, none, label, none⟩ children
    visit d previous label (.node n children) =
      (⟨chain.1.lastDrawn.or previous, chain.1.produced⟩, chain.2) := by
  simp [visit, hloop, hshown, closeLoop]

/-- A visit of a kernel or a step draws its children after the same node. -/
theorem visit_of_not_loop (d : Diagram) (previous : Option Nat) (label : Option String) {n : Node}
    (hloop : ¬n.isLoop) (children : List Tree) :
    let own := if n.visualize then some d.nodes.length else none
    visit d previous label (.node n children) =
      (⟨own.or previous, none⟩,
        visitAll (if n.visualize then d.draw n previous label else d) (own.or previous)
          (if n.visualize then none else label) children) := by
  simp [visit, hloop]

/-- A chain visits its first node and goes on with what that leaves. -/
theorem visitChain_cons (d : Diagram) (state : ChainState) (t : Tree) (ts : List Tree) :
    let visited := visit d state.previous state.label t
    visitChain d state (t :: ts) =
      visitChain visited.2
        (state.after t.root (visited.2.nodes.length != d.nodes.length) visited.1) ts := by
  simp [visitChain]

/-! ## What the walk draws -/

/-- Where a chain is when so many nodes are drawn, the given ones of them in its body. -/
structure ChainState.At (state : ChainState) (count : Nat) (body : List Node) : Prop where
  previous : state.previous = lastNumber count
  lastDrawn : state.lastDrawn = if body = [] then none else lastNumber count

/-- A chain follows the visit of one of its nodes. -/
theorem ChainState.At.after {state : ChainState} {count : Nat} {body more : List Node}
    (h : state.At count body) (child : Node) {result : Visit}
    (hlast : result.last = lastNumber (count + more.length)) :
    (state.after child (count + more.length != count) result).At (count + more.length)
      (body ++ more) := by
  obtain ⟨hprevious, hlastDrawn⟩ := h
  have hdrew : (count + more.length != count) = !more.isEmpty := by
    cases more <;> simp
  rw [hdrew]
  unfold ChainState.after
  cases more with
  | nil =>
      -- Nothing was drawn, so only the label can change.
      simp only [List.isEmpty_nil, Bool.not_true, Bool.not_false, Bool.true_and]
      split
      · simpa using ⟨hprevious, hlastDrawn⟩
      · split <;> simpa using ⟨hprevious, hlastDrawn⟩
  | cons m more =>
      simp only [List.isEmpty_cons, Bool.not_false, Bool.not_true, Bool.false_and]
      rw [if_neg (by simp)]
      split <;> exact ⟨hlast, by simpa using hlast⟩

/-- Visiting a tree after given nodes shows its drawn nodes too, adds its back edges, and hands on
the latest drawn node. -/
def Extends (all : List Node) (t : Tree) : Prop :=
  ∀ {d : Diagram} {shown : List Node} {back : List DrawnEdge} (label : Option String),
    Depicts d shown back → shown ++ t.drawn <+: all →
      Depicts (visit d (lastNumber shown.length) label t).2 (shown ++ t.drawn)
        (back ++ t.subtrees.filterMap (backEdge? all)) ∧
      (visit d (lastNumber shown.length) label t).1.last = lastNumber (shown ++ t.drawn).length

/-- Drawing a body shows the drawn nodes of its trees, in order. -/
theorem visitChain_depicts {all : List Node} {ts : List Tree} (hts : ∀ t ∈ ts, Extends all t)
    {d : Diagram} {shown body : List Node} {back : List DrawnEdge} {state : ChainState}
    (hd : Depicts d shown back) (hstate : state.At shown.length body)
    (hall : shown ++ forestDrawn ts <+: all) :
    Depicts (visitChain d state ts).2 (shown ++ forestDrawn ts)
        (back ++ (forestSubtrees ts).filterMap (backEdge? all)) ∧
      (visitChain d state ts).1.At (shown ++ forestDrawn ts).length (body ++ forestDrawn ts) := by
  induction ts generalizing d shown body back state with
  | nil => simpa [visitChain, forestSubtrees] using ⟨hd, hstate⟩
  | cons t ts ih =>
      rw [forestDrawn_cons, ← List.append_assoc] at hall
      obtain ⟨hvisit, hlast⟩ := hts t List.mem_cons_self state.label hd
        ((List.prefix_append _ _).trans hall)
      rw [← hstate.previous] at hvisit hlast
      rw [List.length_append] at hlast
      have hnext := hstate.after t.root hlast
      rw [← List.length_append] at hnext
      have hrest := ih (fun u hu => hts u (List.mem_cons_of_mem _ hu)) hvisit hnext hall
      rw [visitChain_cons, hvisit.length_nodes, hd.length_nodes]
      simpa [forestSubtrees] using hrest

/-- The number of a node is how many nodes are drawn before it. -/
theorem idxOf_of_isPrefix {all shown : List Node} {n : Node} (hnodup : all.Nodup)
    (hall : shown ++ [n] <+: all) : all.idxOf n = shown.length := by
  obtain ⟨rest, rfl⟩ := hall
  have hn : n ∉ shown := by
    rw [List.append_assoc, List.nodup_append] at hnodup
    obtain ⟨-, -, hdisjoint⟩ := hnodup
    exact fun hmem => hdisjoint n hmem n (by simp) rfl
  rw [List.append_assoc, List.idxOf_append, if_neg hn]
  simp

/-- A step is drawn as listed. -/
theorem extends_step (all : List Node) {n : Node} (hstep : n.isStep) :
    Extends all (.node n []) := by
  intro d shown back label hd hall
  have hloop : ¬n.isLoop := by
    rw [Node.isLoop_iff, Node.isStep_iff.1 hstep]
    simp
  rw [visit_of_not_loop _ _ _ hloop, drawn_node]
  by_cases hshown : n.visualize
  · simpa [visitAll, hshown, hd.length_nodes, lastNumber, subtrees, forestSubtrees, backEdge?,
      hloop] using hd.draw n label
  · simpa [visitAll, hshown, subtrees, forestSubtrees, backEdge?, hloop] using hd

/-- A hidden loop is drawn as listed if its body is. -/
theorem extends_hidden_loop {all : List Node} {n : Node} {children : List Tree} (hloop : n.isLoop)
    (hshown : ¬n.visualize) (hchildren : ∀ t ∈ children, Extends all t) :
    Extends all (.node n children) := by
  intro d shown back label hd hall
  rw [drawn_node, if_neg hshown, List.nil_append] at hall
  have hstart : ChainState.At ⟨lastNumber shown.length, none, label, none⟩ shown.length [] :=
    ⟨rfl, rfl⟩
  obtain ⟨hpicture, hprevious, hlast⟩ := visitChain_depicts hchildren hd hstart hall
  rw [visit_hidden_loop _ _ _ hloop hshown, drawn_node, if_neg hshown, List.nil_append]
  refine ⟨?_, ?_⟩
  · simpa [subtrees, backEdge?, hshown] using hpicture
  · rw [hlast]
    cases forestDrawn children <;> simp [lastNumber]

/-- A loop that is shown is drawn as listed if its body is, and closed. -/
theorem extends_shown_loop {all : List Node} (hnodup : all.Nodup) {n : Node}
    {children : List Tree} (hloop : n.isLoop) (hshown : n.visualize)
    (hchildren : ∀ t ∈ children, Extends all t) : Extends all (.node n children) := by
  intro d shown back label hd hall
  rw [drawn_node, if_pos hshown, ← List.append_assoc] at hall
  have hstart : ChainState.At ⟨some shown.length, none, n.target, none⟩ (shown ++ [n]).length [] :=
    ⟨by rw [List.length_append]; rfl, rfl⟩
  obtain ⟨hpicture, hprevious, hlast⟩ :=
    visitChain_depicts hchildren (hd.draw n label) hstart hall
  rw [visit_shown_loop _ _ _ hloop hshown, drawn_node, if_pos hshown, hd.length_nodes,
    ← List.append_assoc]
  have hn : all.idxOf n = shown.length :=
    idxOf_of_isPrefix hnodup ((List.prefix_append _ _).trans hall)
  rw [hlast, List.nil_append]
  obtain hbody | ⟨before, last, hbody⟩ := List.eq_nil_or_concat (forestDrawn children)
  · -- Nothing in the body is drawn, so the loop itself was drawn last and is not closed.
    refine ⟨?_, ?_⟩
    · simpa [hbody, closeLoop, subtrees, backEdge?] using hpicture
    · simp [hbody, lastNumber]
  · have hne : forestDrawn children ≠ [] := by simp [hbody]
    rw [List.concat_eq_append] at hbody
    have hcount : (shown ++ [n] ++ forestDrawn children).length =
        (shown ++ [n] ++ before).length + 1 := by
      simp [hbody, Nat.add_assoc]
    have hfrom : all.idxOf last = (shown ++ [n] ++ before).length := by
      refine idxOf_of_isPrefix hnodup ?_
      rwa [hbody, ← List.append_assoc] at hall
    have hback : backEdge? all (.node n children) =
        some ⟨(shown ++ [n] ++ before).length, shown.length, none, false⟩ := by
      simp [backEdge?, hloop, hshown, hbody, hn, hfrom]
    have hlt : shown.length < (shown ++ [n] ++ before).length := by
      simp only [List.length_append, List.length_singleton]
      omega
    rw [if_neg hne, hcount, lastNumber]
    refine ⟨?_, rfl⟩
    simpa [subtrees, hback] using hpicture.closeLoop hlt

/-- A tree of loops and steps is drawn as listed. -/
theorem extends_of_isBody {all : List Node} (hnodup : all.Nodup) {t : Tree} (h : t.IsBody) :
    Extends all t := by
  induction h with
  | step hstep => exact extends_step all hstep
  | @loop n children hloop _ ih =>
      by_cases hshown : n.visualize
      · exact extends_shown_loop hnodup hloop hshown ih
      · exact extends_hidden_loop hloop hshown ih

/-- A tree that a record consists of is drawn as listed. -/
theorem flatten_depicts {t : Tree} (h : t.IsRecord) (hnodup : t.drawn.Nodup) :
    Depicts (flatten t) t.drawn (t.subtrees.filterMap (backEdge? t.drawn)) := by
  cases h with
  | body h =>
      have hall : [] ++ t.drawn <+: t.drawn := List.prefix_rfl
      exact (extends_of_isBody hnodup h none .empty hall).1
  | @kernel n body hkernel h =>
      have hloop : ¬n.isLoop := by
        rw [Node.isLoop_iff, Node.isKernel_iff.1 hkernel]
        simp
      have hdrawn : (node n [body]).drawn = (if n.visualize then [n] else []) ++ body.drawn := by
        rw [drawn_node, forestDrawn_cons, forestDrawn_nil, List.append_nil]
      have hback : (node n [body]).subtrees.filterMap (backEdge? (node n [body]).drawn) =
          body.subtrees.filterMap (backEdge? (node n [body]).drawn) := by
        simp [subtrees, forestSubtrees, backEdge?, hloop]
      have hbody : Extends (node n [body]).drawn body := extends_of_isBody hnodup h
      rw [flatten, visit_of_not_loop _ _ _ hloop, visitAll, visitAll, hback]
      by_cases hshown : n.visualize
      · rw [if_pos hshown] at hdrawn
        have hall : [n] ++ body.drawn <+: (node n [body]).drawn := hdrawn ▸ List.prefix_rfl
        have hpicture := (hbody none (Depicts.empty.draw n none) hall).1
        simpa [hshown, hdrawn, lastNumber] using hpicture
      · rw [if_neg hshown] at hdrawn
        have hall : [] ++ body.drawn <+: (node n [body]).drawn := hdrawn ▸ List.prefix_rfl
        have hpicture := (hbody none .empty hall).1
        simpa [hshown, hdrawn, lastNumber] using hpicture

end Diagram

namespace Context

/-- Whatever operations made a record and whichever of its nodes are shown, the diagram of the
tree below a node shows the drawn nodes of that tree in depth-first order, each connected to the
next, and has the back edge of each drawn loop with a drawn body. -/
theorem history_flatten (id : ContextId) (history : History) (flags : NodeId → Bool) {r : Nat}
    {n : Node} (hr : ((fresh id).after history).node? r = some n) :
    ∃ t, (((fresh id).after history).withFlags flags).tree? r = some t ∧
      (((fresh id).after history).withFlags flags).Spans r t ∧
      t.root = { n with visualize := flags r } ∧ (t.drawn.map (·.id)).Nodup ∧
      (Diagram.flatten t).Depicts t.drawn (t.subtrees.filterMap (backEdge? t.drawn)) := by
  have harranged := isArranged_after id history
  have hflagged := harranged.withFlags flags
  have hnode : (((fresh id).after history).withFlags flags).node? r =
      some { n with visualize := flags r } := by
    rw [node?_withFlags, hr, ← harranged.id_eq hr]
    rfl
  obtain ⟨t, ht, hroot, hrecord⟩ := hflagged.isRecord hnode
  have hids : (t.drawn.map (·.id)).Nodup :=
    (hflagged.nodup_toList ht).sublist (List.filter_sublist.map _)
  exact ⟨t, ht, hflagged.spans ht hnode, hroot, hids,
    Diagram.flatten_depicts hrecord (List.Nodup.of_map _ hids)⟩

/-- A kernel with a nested loop, whose grid loop is hidden. -/
theorem history_flatten_hidden_grid :
    let c := (fresh 0).after [(0, .openKernel "axpy" .unbound none), (0, .openLoop none)]
    ∃ n, c.node? 0 = some n ∧
      ∃ t, (c.withFlags (· ≠ 1)).tree? 0 = some t ∧ (c.withFlags (· ≠ 1)).Spans 0 t ∧
        t.root = { n with visualize := true } ∧ (t.drawn.map (·.id)).Nodup ∧
        (Diagram.flatten t).Depicts t.drawn (t.subtrees.filterMap (backEdge? t.drawn)) :=
  ⟨_, rfl, history_flatten 0 _ (· ≠ 1) rfl⟩

end Context

end TileTrace
