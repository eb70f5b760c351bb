import TileTrace.Proofs.DiagramShape
import TileTrace.Proofs.TreePosition

/-!
# Labels of edges

Which label has the edge to a drawn node? The walk of `Diagram.flatten` keeps the
label of the next edge for each loop that it is in. `Tree.edgeLabel` is a rule
without the walk: of the nodes before the drawn node, the latest that may label
an edge to it does so. `Diagram.Labels` says what a visit does to the edges, and
`Diagram.InBody` is where the walk is in the body of a loop: the label it keeps
is the one of the rule. `Context.history_labels` is the main theorem.
-/

namespace TileTrace

/-- What a node writes on edges: a loop the text of its induction, and a step its outputs, joined by
commas, if it has any. -/
def Payload.edgeText : Payload → Option String
  | loop _ induction _ => some induction.text
  | step _ _ _ [] => none
  | step _ _ _ outputs => some (String.intercalate ", " outputs)
  | kernel _ _ _ => none

/-- A node writes on edges what it produces. -/
theorem Node.target_eq (n : Node) : n.target = n.payload.edgeText := by
  obtain ⟨_, _, _, _, _ | _ | ⟨_, _, _, _ | _⟩⟩ := n <;> rfl

namespace Tree

/-- A step can label edges if it is drawn, or if a node before it is. -/
def owns (t : Tree) (m : Node) : Bool :=
  m.isStep && (m.visualize || (t.before m).any (·.visualize))

/-- The nodes that can label the edge to a node: the steps before it that can label edges, and the
drawn loops above it. -/
def candidates (t : Tree) (n : Node) : List Node :=
  (t.before n).filter fun m => t.owns m || (m.isLoop && m.visualize && t.isAbove m n)

/-- The label of the edge to a drawn node is what the latest candidate writes. -/
def edgeLabel (t : Tree) (n : Node) : Option String :=
  (t.candidates n).getLast?.bind (·.payload.edgeText)

/-- The labelled path through drawn nodes. -/
def pathEdges (t : Tree) (shown : List Node) : List DrawnEdge :=
  shown.tail.mapIdx fun j m => ⟨j, j + 1, t.edgeLabel m, true⟩

/-- The label of the edge to a tree that occurs with the given nodes before it and above it. -/
def labelAt (t : Tree) (pre path : List Node) : Option String :=
  (pre.filter fun m => t.owns m || (m.isLoop && m.visualize && m ∈ path)).getLast?.bind
    (·.payload.edgeText)

/-- What the latest of some nodes writes that can label edges, if there is one. -/
def produced? (t : Tree) (ns : List Node) : Option (Option String) :=
  (ns.filter t.owns).getLast?.map (·.payload.edgeText)

variable {t u : Tree} {pre path : List Node}

/-- The label of the edge to the root of a tree depends on where the tree occurs only. -/
theorem Occurs.edgeLabel_root (h : u.Occurs t pre path) (hnodup : t.toList.Nodup) :
    t.edgeLabel u.root = t.labelAt pre path := by
  have habove (m : Node) : t.isAbove m u.root = decide (m ∈ path) := by
    rw [Bool.eq_iff_iff, h.isAbove_root hnodup, decide_eq_true_eq]
  rw [edgeLabel, candidates, labelAt, h.before_root hnodup]
  simp only [habove]

theorem produced?_append (ns ms : List Node) :
    t.produced? (ns ++ ms) = (t.produced? ms).or (t.produced? ns) := by
  simp [produced?, List.filter_append, List.getLast?_append, Option.map_or]

/-- After more nodes, none of which lies above, the latest that can label edges does so. -/
theorem labelAt_append {ns : List Node} (h : ∀ m ∈ ns, m ∉ path) :
    t.labelAt (pre ++ ns) path = (t.produced? ns).getD (t.labelAt pre path) := by
  have hns : ns.filter (fun m => t.owns m || (m.isLoop && m.visualize && m ∈ path)) =
      ns.filter t.owns := by
    refine List.filter_congr fun m hm => ?_
    simp [h m hm]
  rw [labelAt, List.filter_append, hns, List.getLast?_append, produced?, labelAt]
  cases (ns.filter t.owns).getLast? <;> rfl

/-- In a drawn loop the first label is that of the loop. -/
theorem labelAt_shown_loop {n : Node} (hloop : n.isLoop) (hshown : n.visualize) :
    t.labelAt (pre ++ [n]) (path ++ [n]) = n.target := by
  simp [labelAt, List.filter_append, hloop, hshown, n.target_eq]

theorem owns_eq_false {m : Node} (h : ¬m.isStep) : t.owns m = false := by
  simp [owns, h]

theorem not_isStep_of_isLoop {n : Node} (h : n.isLoop) : ¬n.isStep := by
  rw [Node.isStep_iff]
  rw [Node.isLoop_iff] at h
  obtain h | h := h <;> rw [h] <;> nofun

/-- A hidden loop, or a kernel, leaves the label as it is. -/
theorem labelAt_hidden {n : Node} (hstep : ¬n.isStep) (hhidden : ¬(n.isLoop && n.visualize)) :
    t.labelAt (pre ++ [n]) (path ++ [n]) = t.labelAt pre path := by
  have hpre : pre.filter (fun m => t.owns m || (m.isLoop && m.visualize && m ∈ path ++ [n])) =
      pre.filter fun m => t.owns m || (m.isLoop && m.visualize && m ∈ path) := by
    refine List.filter_congr fun m hm => ?_
    by_cases hmn : m = n
    · subst hmn
      simp [hhidden]
    · simp [hmn]
  rw [labelAt, List.filter_append, hpre, labelAt]
  simp [owns_eq_false hstep, hhidden]

/-- Nothing is produced while nothing is drawn. -/
theorem Occurs.produced?_eq_none (h : u.Occurs t pre path) (hnodup : t.toList.Nodup)
    (hpre : pre.filter (·.visualize) = []) (hu : u.drawn = []) : t.produced? u.toList = none := by
  obtain ⟨post, hpost⟩ := h.exists_toList_eq
  have hhidden : ∀ m ∈ pre ++ u.toList, ¬m.visualize := by
    rw [← List.filter_eq_nil_iff, List.filter_append, hpre]
    exact hu
  have howns : u.toList.filter t.owns = [] := by
    rw [List.filter_eq_nil_iff]
    intro m hm
    obtain ⟨front, rest, hsplit⟩ := List.append_of_mem hm
    have ht : t.toList = (pre ++ front) ++ m :: (rest ++ post) := by
      rw [hpost, hsplit]
      simp
    have hmem : m ∉ pre ++ front := fun hmem =>
      (List.nodup_append.1 (ht ▸ hnodup)).2.2 m hmem m List.mem_cons_self rfl
    have hbefore : t.before m = pre ++ front := by
      rw [before, ht, takeWhile_ne_append_cons hmem]
    have hnone : (pre ++ front).any (·.visualize) = false := by
      rw [List.any_eq_false]
      intro k hk
      refine hhidden k ?_
      rw [hsplit, ← List.append_assoc]
      exact List.mem_append_left _ hk
    have hm' := hhidden m (List.mem_append_right _ hm)
    rw [owns, hbefore, hnone]
    simp [hm']
  rw [produced?, howns]
  rfl

/-- The drawn nodes before a tree and those of the tree come first. -/
theorem Occurs.drawn_isPrefix (h : u.Occurs t pre path) :
    pre.filter (·.visualize) ++ u.drawn <+: t.drawn := by
  obtain ⟨post, hpost⟩ := h.exists_toList_eq
  rw [drawn, drawn, ← List.filter_append, hpost]
  exact (List.prefix_append _ _).filter _

end Tree

namespace Diagram
open TileTrace.Tree

variable {t u : Tree} {pre path : List Node} {d : Diagram} {back : List DrawnEdge}

theorem lastNumber_eq_none {count : Nat} : lastNumber count = none ↔ count = 0 := by
  cases count <;> simp [lastNumber]

/-- The edges that constrain the layout. -/
def pathOf (d : Diagram) : List DrawnEdge :=
  d.edges.filter (·.constraint)

/-- Drawing a node after the latest one adds the labelled edge to it. -/
theorem pathOf_draw {shown : List Node} (hd : Depicts d shown back)
    (hpath : d.pathOf = t.pathEdges shown) (n : Node) :
    (d.draw n (lastNumber shown.length) (t.edgeLabel n)).pathOf = t.pathEdges (shown ++ [n]) := by
  rw [pathOf] at hpath
  cases shown with
  | nil => simp [pathOf, pathEdges, Diagram.draw, lastNumber, hpath]
  | cons m shown =>
      simp [pathOf, pathEdges, Diagram.draw, lastNumber, hpath, hd.length_nodes,
        List.mapIdx_append]

theorem pathOf_closeLoop (d : Diagram) (loop last : Option Nat) :
    (closeLoop d loop last).pathOf = d.pathOf := by
  unfold closeLoop
  split
  · split
    · rfl
    · simp [pathOf]
  · rfl

/-- A chain takes over what the visit of a node produced. -/
theorem ChainState.after_label {state : ChainState} {child : Node} {drew : Bool} {visit : Visit}
    {produced : Option (Option String)}
    (hidle : drew = false → state.previous = none → produced = none)
    (hproduced : drew = true ∨ state.previous ≠ none →
      (if child.isLoop then visit.produced else some child.target) = produced) :
    (state.after child drew visit).label = produced.getD state.label ∧
      (state.after child drew visit).produced = produced.or state.produced := by
  unfold ChainState.after
  split
  · next hnone =>
    simp at hnone
    rw [hidle hnone.1 hnone.2]
    exact ⟨rfl, rfl⟩
  · next hsome =>
    have hp := hproduced (by
      cases drew
      · simpa using hsome
      · simp)
    simp only [hp]
    cases produced with
    | none => cases drew <;> exact ⟨rfl, rfl⟩
    | some label => exact ⟨rfl, rfl⟩

/-- Visiting a tree that occurs in another one adds the edges to its drawn nodes with their labels,
and a loop hands on what its body produced last. -/
def Labels (t u : Tree) : Prop :=
  ∀ {pre path : List Node} {d : Diagram} {back : List DrawnEdge}, u.Occurs t pre path →
    Depicts d (pre.filter (·.visualize)) back →
    d.pathOf = t.pathEdges (pre.filter (·.visualize)) →
    (visit d (lastNumber (pre.filter (·.visualize)).length) (t.labelAt pre path) u).2.pathOf =
        t.pathEdges ((pre ++ u.toList).filter (·.visualize)) ∧
      (u.root.isLoop →
        (visit d (lastNumber (pre.filter (·.visualize)).length)
          (t.labelAt pre path) u).1.produced = t.produced? u.toList)

variable (hnodup : t.toList.Nodup)
include hnodup

/-- Visiting a step labels the edge to it. -/
theorem labels_step {n : Node} (hstep : n.isStep) : Labels t (.node n []) := by
  intro pre path d back h hd hpath
  have hloop : ¬n.isLoop := fun hloop => not_isStep_of_isLoop hloop hstep
  have hlabel := h.edgeLabel_root hnodup
  rw [root_node] at hlabel
  rw [visit_of_not_loop _ _ _ hloop, ← hlabel]
  refine ⟨?_, fun hloop' => absurd hloop' hloop⟩
  by_cases hshown : n.visualize
  · simpa [visitAll, hshown, toList, forestToList] using pathOf_draw hd hpath n
  · simpa [visitAll, hshown, toList, forestToList] using hpath

/-- What a chain takes over from a tree is what the latest of its nodes produces that can label
edges. -/
theorem produced_eq (h : u.Occurs t pre path) (hbody : u.IsBody) {visit : Visit}
    (hloop : u.root.isLoop → visit.produced = t.produced? u.toList)
    (hdrawn : (pre ++ u.toList).filter (·.visualize) ≠ []) :
    (if u.root.isLoop then visit.produced else some u.root.target) = t.produced? u.toList := by
  cases hbody with
  | loop hisLoop => exact (if_pos hisLoop).trans (hloop hisLoop)
  | @step n hstep =>
      have hisLoop : ¬n.isLoop := fun hisLoop => not_isStep_of_isLoop hisLoop hstep
      have hbefore := h.before_root hnodup
      rw [root_node] at hbefore
      have howns : t.owns n = true := by
        rw [owns, hbefore, hstep, Bool.true_and, Bool.or_eq_true, List.any_eq_true]
        obtain ⟨m, hm⟩ := List.exists_mem_of_ne_nil _ hdrawn
        obtain ⟨hmem, hshown⟩ := List.mem_filter.1 hm
        obtain hmem | hmem := List.mem_append.1 hmem
        · exact .inr ⟨m, hmem, hshown⟩
        · obtain rfl : m = n := by simpa [toList, forestToList] using hmem
          exact .inl hshown
      simp [hisLoop, toList, forestToList, produced?, howns, n.target_eq]

/-- Where a chain is in the body of a loop when the given trees are drawn: it has the label for the
next edge, and knows what the body has produced. -/
structure InBody (t : Tree) (n : Node) (pre path : List Node) (done : List Tree) (d : Diagram)
    (state : ChainState) : Prop where
  depicts : ∃ back, Depicts d ((pre ++ n :: forestToList done).filter (·.visualize)) back
  pathOf : d.pathOf = t.pathEdges ((pre ++ n :: forestToList done).filter (·.visualize))
  drawn : ∃ body, state.At ((pre ++ n :: forestToList done).filter (·.visualize)).length body
  label : state.label = t.labelAt (pre ++ n :: forestToList done) (path ++ [n])
  produced : state.produced = t.produced? (forestToList done)

/-- Visiting the next tree of a body brings the chain behind it. -/
theorem InBody.next {n : Node} {done rest : List Tree} {state : ChainState}
    (h : InBody t n pre path done d state)
    (hbody : (node n (done ++ u :: rest)).Occurs t pre path) (hisBody : u.IsBody)
    (hlabels : Labels t u) :
    let visited := visit d state.previous state.label u
    InBody t n pre path (done ++ [u]) visited.2
      (state.after u.root (visited.2.nodes.length != d.nodes.length) visited.1) := by
  intro visited
  obtain ⟨⟨back, hd⟩, hpath, ⟨body, hstate⟩, hlabel, hproduced⟩ := h
  have hu := hbody.child
  have hnodes : pre ++ n :: forestToList (done ++ [u]) =
      (pre ++ n :: forestToList done) ++ u.toList := by
    simp [forestToList]
  have hdisjoint : ∀ m ∈ u.toList, m ∉ path ++ [n] := by
    intro m hm hmem
    obtain ⟨post, hpost⟩ := hu.exists_toList_eq
    rw [hpost] at hnodup
    exact (List.nodup_append.1 (List.nodup_append.1 hnodup).1).2.2 m (hu.mem_pre hmem) m hm rfl
  obtain ⟨hedges, hloopProduced⟩ := hlabels hu hd hpath
  obtain ⟨hvisit, hlast⟩ := extends_of_isBody (hnodup.filter _) hisBody
    (t.labelAt (pre ++ n :: forestToList done) (path ++ [n])) hd hu.drawn_isPrefix
  rw [← hlabel, ← hstate.previous] at hedges hloopProduced hvisit hlast
  set before := pre ++ n :: forestToList done
  have hshown : (before ++ u.toList).filter (·.visualize) =
      before.filter (·.visualize) ++ u.drawn := List.filter_append _ _
  rw [List.length_append] at hlast
  have hnext := hstate.after u.root hlast
  rw [← List.length_append] at hnext
  rw [hvisit.length_nodes, hd.length_nodes]
  have hidle : ((before.filter (·.visualize) ++ u.drawn).length !=
      (before.filter (·.visualize)).length) = false → state.previous = none →
      t.produced? u.toList = none := by
    intro hdrew hnone
    rw [hstate.previous, lastNumber_eq_none, List.length_eq_zero_iff] at hnone
    exact hu.produced?_eq_none hnodup hnone (by simpa using hdrew)
  have hvisited : ((before.filter (·.visualize) ++ u.drawn).length !=
      (before.filter (·.visualize)).length) = true ∨ state.previous ≠ none →
      (if u.root.isLoop then visited.1.produced else some u.root.target) =
        t.produced? u.toList := by
    intro hsome
    refine produced_eq hnodup hu hisBody hloopProduced ?_
    rw [hshown]
    intro hnil
    obtain ⟨hnone, hnothing⟩ := List.append_eq_nil_iff.1 hnil
    rw [hstate.previous, hnone, hnothing] at hsome
    simp [lastNumber] at hsome
  obtain ⟨hlabel', hproduced'⟩ := ChainState.after_label hidle hvisited
  refine ⟨⟨back ++ u.subtrees.filterMap (backEdge? t.drawn), ?_⟩, ?_, ⟨body ++ u.drawn, ?_⟩,
    ?_, ?_⟩
  · rw [hnodes, hshown]
    exact hvisit
  · rw [hnodes]
    exact hedges
  · rw [hnodes, hshown]
    exact hnext
  · rw [hnodes, labelAt_append hdisjoint, ← hlabel]
    exact hlabel'
  · rw [forestToList_append, produced?_append, ← hproduced]
    simpa [forestToList] using hproduced'

/-- Drawing the body of a loop labels the edges in it, and hands on what it produced last. -/
theorem InBody.chain {n : Node} {ts : List Tree} (hisBody : ∀ u ∈ ts, u.IsBody)
    (hlabels : ∀ u ∈ ts, Labels t u) {done : List Tree} {state : ChainState}
    (hbody : (node n (done ++ ts)).Occurs t pre path) (h : InBody t n pre path done d state) :
    InBody t n pre path (done ++ ts) (visitChain d state ts).2 (visitChain d state ts).1 := by
  induction ts generalizing d done state with
  | nil =>
      rw [List.append_nil]
      exact h
  | cons u ts ih =>
      have hnext := h.next hnodup hbody (hisBody u List.mem_cons_self)
        (hlabels u List.mem_cons_self)
      rw [List.append_cons] at hbody ⊢
      rw [visitChain_cons]
      exact ih (fun v hv => hisBody v (List.mem_cons_of_mem _ hv))
        (fun v hv => hlabels v (List.mem_cons_of_mem _ hv)) hbody hnext

/-- Visiting a loop labels the edges to its drawn nodes if visiting the trees of its body does. -/
theorem labels_loop {n : Node} {children : List Tree} (hloop : n.isLoop)
    (hisBody : ∀ u ∈ children, u.IsBody) (hlabels : ∀ u ∈ children, Labels t u) :
    Labels t (.node n children) := by
  intro pre path d back h hd hpath
  have hlabel := h.edgeLabel_root hnodup
  rw [root_node] at hlabel
  have hproduced : t.produced? (node n children).toList = t.produced? (forestToList children) := by
    simp [toList, produced?, owns_eq_false (not_isStep_of_isLoop hloop)]
  rw [hproduced]
  by_cases hshown : n.visualize
  · have hdrawn : (pre ++ n :: forestToList []).filter (·.visualize) =
        pre.filter (·.visualize) ++ [n] := by
      simp [forestToList, hshown]
    have hstart : InBody t n pre path []
        (d.draw n (lastNumber (pre.filter (·.visualize)).length) (t.labelAt pre path))
        ⟨some d.nodes.length, none, n.target, none⟩ := by
      refine ⟨⟨back, ?_⟩, ?_, ⟨[], ?_, rfl⟩, ?_, rfl⟩
      · rw [hdrawn]
        exact hd.draw n _
      · rw [hdrawn, ← hlabel]
        exact pathOf_draw hd hpath n
      · rw [hdrawn, List.length_append, hd.length_nodes]
        rfl
      · exact (labelAt_shown_loop hloop hshown).symm
    have hchain := hstart.chain hnodup hisBody hlabels h
    rw [visit_shown_loop _ _ _ hloop hshown]
    refine ⟨?_, fun _ => hchain.produced⟩
    rw [pathOf_closeLoop]
    exact hchain.pathOf
  · have hdrawn : (pre ++ n :: forestToList []).filter (·.visualize) =
        pre.filter (·.visualize) := by
      simp [forestToList, hshown]
    have hstart : InBody t n pre path [] d
        ⟨lastNumber (pre.filter (·.visualize)).length, none, t.labelAt pre path, none⟩ := by
      refine ⟨⟨back, ?_⟩, ?_, ⟨[], ?_, rfl⟩, ?_, rfl⟩
      · rw [hdrawn]
        exact hd
      · rw [hdrawn]
        exact hpath
      · rw [hdrawn]
      · exact (labelAt_hidden (not_isStep_of_isLoop hloop) (by simp [hshown])).symm
    have hchain := hstart.chain hnodup hisBody hlabels h
    rw [visit_hidden_loop _ _ _ hloop hshown]
    exact ⟨hchain.pathOf, fun _ => hchain.produced⟩

/-- Visiting a tree of loops and steps labels the edges to its drawn nodes. -/
theorem labels_of_isBody (h : u.IsBody) : Labels t u := by
  induction h with
  | step hstep => exact labels_step hnodup hstep
  | loop hloop hisBody ih => exact labels_loop hnodup hloop hisBody ih

/-- The edges between the drawn nodes of a record are labelled as said. -/
theorem pathOf_flatten (h : t.IsRecord) : (flatten t).pathOf = t.pathEdges t.drawn := by
  cases h with
  | body h => exact (labels_of_isBody hnodup h .self .empty rfl).1
  | @kernel n body hkernel h =>
      have hloop : ¬n.isLoop := by
        rw [Node.isLoop_iff, Node.isKernel_iff.1 hkernel]
        simp
      have hstep : ¬n.isStep := by
        rw [Node.isStep_iff, Node.isKernel_iff.1 hkernel]
        simp
      have hbody : body.Occurs (node n [body]) [n] [n] := by
        simpa [forestToList] using Occurs.self.under n [] []
      have hlabel : (node n [body]).labelAt ([] ++ [n]) ([] ++ [n]) = none :=
        labelAt_hidden hstep (by simp [hloop])
      have hdrawn : (node n [body]).drawn = ([n] ++ body.toList).filter (·.visualize) := by
        simp [drawn, toList, forestToList]
      have hlabels : Labels (node n [body]) body := labels_of_isBody hnodup h
      rw [List.nil_append] at hlabel
      rw [flatten, visit_of_not_loop _ _ _ hloop, visitAll, visitAll, hdrawn]
      by_cases hshown : n.visualize
      · have hone : [n].filter (·.visualize) = [n] := by simp [hshown]
        have hpath : (Diagram.draw {} n none none).pathOf =
            (node n [body]).pathEdges ([n].filter (·.visualize)) := by
          rw [hone]
          rfl
        have hpicture := (hlabels hbody (hone ▸ Depicts.empty.draw n none) hpath).1
        simpa [hshown, hlabel, lastNumber] using hpicture
      · have hnone : [n].filter (·.visualize) = [] := by simp [hshown]
        have hpath : pathOf {} = (node n [body]).pathEdges ([n].filter (·.visualize)) := by
          rw [hnone]
          rfl
        have hpicture := (hlabels hbody (hnone ▸ Depicts.empty) hpath).1
        simpa [hshown, hlabel, lastNumber] using hpicture

end Diagram

namespace Context

/-- Whatever operations made a record and whichever of its nodes are shown, in the diagram of the
tree below a node the edge to each drawn node but the first comes from the drawn node before it,
and is labelled with what the latest candidate for it produces. -/
theorem history_labels (id : ContextId) (history : History) (flags : NodeId → Bool) {r : Nat}
    {n : Node} (hr : ((fresh id).after history).node? r = some n) :
    ∃ t, (((fresh id).after history).withFlags flags).tree? r = some t ∧
      (((fresh id).after history).withFlags flags).Spans r t ∧
      t.root = { n with visualize := flags r } ∧ (t.toList.map (·.id)).Nodup ∧
      ((Diagram.flatten t).nodes.map fun shown => (shown.id, shown.source)) =
        (t.drawn.mapIdx fun j m => ((j : Int), (m.id : Int))) ∧
      (Diagram.flatten t).edges.filter (·.constraint) =
        t.drawn.tail.mapIdx fun j m => ⟨j, j + 1, t.edgeLabel m, true⟩ := by
  have harranged := isArranged_after id history
  have hflagged := harranged.withFlags flags
  have hnode : (((fresh id).after history).withFlags flags).node? r =
      some { n with visualize := flags r } := by
    rw [node?_withFlags, hr, ← harranged.id_eq hr]
    rfl
  obtain ⟨t, ht, hroot, hrecord⟩ := hflagged.isRecord hnode
  have hids := hflagged.nodup_toList ht
  have hnodup : t.toList.Nodup := List.Nodup.of_map _ hids
  refine ⟨t, ht, hflagged.spans ht hnode, hroot, hids, ?_, Diagram.pathOf_flatten hnodup hrecord⟩
  rw [(Diagram.flatten_depicts hrecord (hnodup.filter _)).nodes]
  refine List.ext_getElem? fun j => ?_
  simp [Function.comp_def]

/-- A step that adds a number to a sum. -/
def accumulateStep : StepDefinition where
  declaration := 0
  name := "accumulate"
  function := 0
  parameters := ["summand"]
  tagSource := .literal .unbound
  outputs := ["sum", "carry"]
  requestedId := none
  tag_mem := nofun

/-- A kernel with two steps, the first of which is to be hidden, and with a step in a loop. -/
def sumHistory : History :=
  [(0, .openKernel "sum" .unbound none), (0, .recordStep accumulateStep .unbound none []),
    (0, .recordStep accumulateStep .unbound none []), (0, .openLoop none),
    (0, .recordStep accumulateStep .unbound none [])]

/-- The edge to the second step shows what the hidden step produces, and the edge into the loop
shows the induction of the loop. -/
theorem history_labels_hidden_step :
    let labels := [none, some "sum, carry", some "sum, carry", some "coord0"]
    ∃ n, ((fresh 0).after sumHistory).node? 0 = some n ∧
      ∃ t, (((fresh 0).after sumHistory).withFlags (· ≠ 2)).tree? 0 = some t ∧
        t.root = { n with visualize := true } ∧
        t.drawn.tail.map t.edgeLabel = labels ∧
        (Diagram.flatten t).edges.filter (·.constraint) =
          t.drawn.tail.mapIdx fun j m => ⟨j, j + 1, t.edgeLabel m, true⟩ := by
  intro labels
  have hlabels : ((((fresh 0).after sumHistory).withFlags (· ≠ 2)).tree? 0).map
      (fun t => t.drawn.tail.map t.edgeLabel) = some labels := by
    decide +kernel
  obtain ⟨t, ht, -, hroot, -, -, hedges⟩ := history_labels 0 sumHistory (· ≠ 2) (r := 0) rfl
  rw [ht] at hlabels
  exact ⟨_, rfl, t, ht, hroot, Option.some.inj hlabels, hedges⟩

end Context

end TileTrace
