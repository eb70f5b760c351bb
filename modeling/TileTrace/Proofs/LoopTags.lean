import TileTrace.Proofs.Binding
import TileTrace.Proofs.FreshInductions

/-!
# Tags tell loops apart

The tag of a loop is the template of its kernel with the inductions on the way
down to the loop in the first slots. While there are slots for all of them, both
the number of loops on the way and the inductions can be read off the tag, by
`GrownTag.unique`. The last of these is the induction of the loop, which no other
loop has. So `history_tags_distinct`, the main theorem, says that a kernel
with a slot for every loop on its deepest path has no two loops with one tag. The
symbols and the shape of the template do not matter for this.
-/

namespace TileTrace

namespace Context

/-- The number of loops on the way from a node to its kernel, the node included. -/
def loopsAbove (c : Context) (n : Node) : Nat :=
  (c.lineage n).countP fun i => (c.node? i).any (·.isLoop)

/-- The number of loops on the deepest path below a kernel. -/
def loopHeight (c : Context) (kernel : NodeId) : Nat :=
  ((c.collected kernel).map c.loopsAbove).max?.getD 0

variable {c : Context}

/-- No path is deeper than the deepest one. -/
theorem loopsAbove_le_loopHeight {k : NodeId} {n : Node} (hn : n ∈ c.collected k) :
    c.loopsAbove n ≤ c.loopHeight k :=
  List.le_max?_getD_of_mem (List.mem_map_of_mem hn)

/-- Only loops have symbols. -/
theorem isLoop_of_symbolOf? {i : NodeId} {symbol : Value} (h : c.symbolOf? i = some symbol) :
    (c.node? i).any (·.isLoop) = true := by
  obtain ⟨n, hn, hsymbol⟩ := Option.bind_eq_some_iff.1 h
  rw [hn, Option.any_some]
  obtain ⟨_, _, _, _, _ | _ | _⟩ := n
  · cases hsymbol
  · rfl
  · cases hsymbol

/-! ## What a tag tells -/

/-- A tag grows by loops. -/
theorem GrownTag.isLoop {template tag : Coordinate} {loops : List NodeId}
    (h : c.GrownTag template loops tag) : ∀ i ∈ loops, (c.node? i).any (·.isLoop) = true := by
  intro i hi
  obtain ⟨symbols, hsymbols, -⟩ := h
  have hsymbol : c.symbolOf? i ∈ symbols.map some := hsymbols ▸ List.mem_map_of_mem hi
  obtain ⟨symbol, -, hsome⟩ := List.mem_map.1 hsymbol
  exact isLoop_of_symbolOf? hsome.symm

/-- With a slot for every loop, a tag tells the symbols of the loops. -/
theorem GrownTag.unique {template tag : Coordinate} {loops others : List NodeId}
    (h : c.GrownTag template loops tag) (h' : c.GrownTag template others tag)
    (hslots : loops.length ≤ template.unboundCount)
    (hslots' : others.length ≤ template.unboundCount) :
    loops.map c.symbolOf? = others.map c.symbolOf? := by
  obtain ⟨symbols, hsymbols, htag⟩ := h
  obtain ⟨symbols', hsymbols', htag'⟩ := h'
  have hbound (vs : List Value) : ∀ w ∈ vs.map Coordinate.bound, w.unboundCount = 0 := by
    simp [Coordinate.unboundCount]
  have hlength := congrArg List.length hsymbols
  have hlength' := congrArg List.length hsymbols'
  simp only [List.length_map] at hlength hlength'
  -- Every symbol has taken a slot, so the slots that are left tell how many symbols there are.
  have hcount : symbols.length = symbols'.length := by
    have hleft := congrArg Coordinate.unboundCount (htag.symm.trans htag')
    rw [Coordinate.unboundCount_fill _ _ (hbound _), Coordinate.unboundCount_fill _ _ (hbound _),
      List.length_map, List.length_map] at hleft
    omega
  have hfillings := Coordinate.fill_injective (by rw [List.length_map]; omega) (by simpa)
    (htag.symm.trans htag')
  have hsame : symbols = symbols' :=
    (List.map_inj_right fun _ _ => Coordinate.bound.inj).1 hfillings
  rw [hsymbols, hsymbols', hsame]

namespace IsArranged

/-- What is collected below a kernel has the kernel in its lineage. -/
theorem mem_collected (h : c.IsArranged) {k : NodeId} {kernel n : Node}
    (hk : c.node? k = some kernel) :
    n ∈ c.collected k ↔ ∃ j, c.node? j = some n ∧ k ∈ c.lineage n := by
  obtain ⟨t, ht, -, -⟩ := h.isRecord hk
  rw [collected, ht]
  exact h.mem_toList_iff ht

/-- The symbol of a loop is its induction. -/
theorem exists_symbol (h : c.IsArranged) (hgrow : c.TagsGrow) {i : Nat} {n : Node}
    (hn : c.node? i = some n) (hloop : n.isLoop) :
    ∃ symbol, c.symbolOf? n.id = some symbol ∧ n.induction = .ok symbol := by
  obtain ⟨-, -, symbol, -, -, hsymbol, -⟩ := hgrow hn hloop
  refine ⟨symbol, ?_, hsymbol⟩
  rw [symbolOf?, h.id_eq hn, hn, Option.bind_some, hsymbol]
  rfl

/-- The tag of a loop has grown from the tag of the kernel by the loops above it and its own. -/
theorem exists_outer_loops (h : c.IsArranged) (hgrow : c.TagsGrow) {k : NodeId}
    {kernel n : Node} (hk : c.node? k = some kernel) (hkernel : kernel.isKernel)
    (hn : n ∈ c.collected k) (hloop : n.isLoop) :
    ∃ outer, c.loopsAbove n = (n.id :: outer).length ∧
      c.GrownTag kernel.tag (n.id :: outer).reverse n.tag := by
  obtain ⟨j, hj, hmem⟩ := (h.mem_collected hk).1 hn
  obtain ⟨loops, k', kernel', hlineage, hk', hkernel', hgrown⟩ := h.grownTag hgrow hj hloop
  have hmem' : k' ∈ c.lineage n := hlineage ▸ List.mem_append_right loops List.mem_cons_self
  obtain rfl : k = k' := by
    rw [← (h.rootOf_eq_iff hj hk hkernel).2 hmem, (h.rootOf_eq_iff hj hk' hkernel').2 hmem']
  obtain rfl := Option.some.inj (hk.symm.trans hk')
  have hall : ∀ i ∈ loops, (c.node? i).any (·.isLoop) = true := fun i hi =>
    hgrown.isLoop i (List.mem_reverse.2 hi)
  have hnone : kernel.isLoop = false := by
    rw [Bool.eq_false_iff, ne_eq, Node.isLoop_iff, Node.isKernel_iff.1 hkernel]
    nofun
  have hcount : c.loopsAbove n = loops.length := by
    rw [loopsAbove, hlineage, List.countP_append, List.countP_eq_length.2 hall,
      List.countP_singleton, hk, Option.any_some, hnone]
    rfl
  cases loops with
  | nil =>
      -- The way of a loop does not begin with a kernel.
      rw [lineage, List.nil_append, List.cons.injEq] at hlineage
      rw [h.id_eq hj] at hlineage
      rw [hlineage.1, hk] at hj
      cases hj
      rw [hnone] at hloop
      cases hloop
  | cons i outer =>
      rw [lineage, List.cons_append, List.cons.injEq] at hlineage
      exact ⟨outer, hlineage.1 ▸ hcount, hlineage.1 ▸ hgrown⟩

/-- With a slot for every loop above them, loops with one tag have one induction: it is the symbol
in the last slot that was filled. -/
theorem induction_eq_of_tag (h : c.IsArranged) (hgrow : c.TagsGrow) {k : NodeId}
    {kernel n m : Node} (hk : c.node? k = some kernel) (hkernel : kernel.isKernel)
    (hn : n ∈ c.collected k) (hm : m ∈ c.collected k) (hloop : n.isLoop) (hloop' : m.isLoop)
    (hslots : c.loopHeight k ≤ kernel.tag.unboundCount) (htag : n.tag = m.tag) :
    n.induction = m.induction := by
  obtain ⟨outer, hcount, hgrown⟩ := h.exists_outer_loops hgrow hk hkernel hn hloop
  obtain ⟨outer', hcount', hgrown'⟩ := h.exists_outer_loops hgrow hk hkernel hm hloop'
  have hheight := loopsAbove_le_loopHeight hn
  have hheight' := loopsAbove_le_loopHeight hm
  have hsymbols := hgrown.unique (htag ▸ hgrown') (by rw [List.length_reverse]; omega)
    (by rw [List.length_reverse]; omega)
  rw [List.map_reverse, List.map_reverse, List.reverse_inj, List.map_cons, List.map_cons,
    List.cons.injEq] at hsymbols
  obtain ⟨i, hi, -⟩ := (h.mem_collected hk).1 hn
  obtain ⟨j, hj, -⟩ := (h.mem_collected hk).1 hm
  obtain ⟨symbol, hsymbol, hinduction⟩ := h.exists_symbol hgrow hi hloop
  obtain ⟨symbol', hsymbol', hinduction'⟩ := h.exists_symbol hgrow hj hloop'
  have hsame : symbol = symbol' :=
    Option.some.inj (hsymbol.symm.trans (hsymbols.1.trans hsymbol'))
  rw [hinduction, hinduction', hsame]

end IsArranged

/-- A kernel has the template that it was opened with as tag. -/
theorem OpenedWith.exists_kernel {id : ContextId} {history : History} {k : NodeId}
    {template : Coordinate} (h : OpenedWith id history k template) :
    ∃ kernel, ((fresh id).after history).node? k = some kernel ∧ kernel.isKernel ∧
      kernel.tag = template := by
  obtain ⟨j, hj, htemplate⟩ := h
  obtain ⟨kernel, hk, hkernel⟩ :=
    (isArranged_after id history).mem_kernels.1 (List.mem_of_getElem? hj)
  have htag := openedTemplates_of_kernels hj hk
  exact ⟨kernel, hk, hkernel, Option.some.inj (htag.symm.trans htemplate)⟩

/-- Tags tell loops apart. When the template of a kernel has a slot for every loop on the deepest
path, no two loops of the kernel have the same tag. -/
theorem history_tags_distinct (id : ContextId) (history : History) {k : NodeId}
    {template : Coordinate} (hopened : OpenedWith id history k template)
    (hslots : ((fresh id).after history).loopHeight k ≤ template.unboundCount) :
    ∃ t, ((fresh id).after history).tree? k = some t ∧ ((fresh id).after history).Spans k t ∧
      ((fresh id).after history).collected k = t.toList ∧
      ∀ n ∈ t.toList, ∀ m ∈ t.toList, n.isLoop → m.isLoop → n ≠ m → n.tag ≠ m.tag := by
  have h := isArranged_after id history
  obtain ⟨kernel, hk, hkernel, rfl⟩ := hopened.exists_kernel
  obtain ⟨t, ht, -, -⟩ := h.isRecord hk
  have hcollected : ((fresh id).after history).collected k = t.toList := by
    rw [collected, ht]
  refine ⟨t, ht, h.spans ht hk, hcollected, ?_⟩
  rw [← hcollected]
  intro n hn m hm hloop hloop' hne htag
  have hinduction := h.induction_eq_of_tag (tagsGrow_after id history) hk hkernel hn hm hloop
    hloop' hslots htag
  have hmem {n : Node} (hn : n ∈ ((fresh id).after history).collected k) :
      n ∈ ((fresh id).after history).nodes.toList := by
    obtain ⟨i, hi, -⟩ := (h.mem_collected hk).1 hn
    exact Array.mem_toList_iff.2 (Array.mem_of_getElem? hi)
  exact hne ((inductionsInOrder_after id history).eq_of_induction (hmem hn) (hmem hm) hloop hloop'
    hinduction)

/-- A template with two slots and with symbols that are named like those of loops, and two loops
next to each other. -/
theorem history_tags_distinct_named :
    let template : Coordinate := .composite [.bound (.symbolic "tile0"),
      .composite [.unbound, .bound (.symbolic "coord1")], .unbound]
    let history : History := [(0, .openKernel "copy" template none), (0, .openLoop none),
      (0, .closeLoop), (0, .openLoop none)]
    OpenedWith 0 history 0 template ∧
    ((fresh 0).after history).loopHeight 0 ≤ template.unboundCount ∧
    ∃ t, ((fresh 0).after history).tree? 0 = some t ∧ ((fresh 0).after history).Spans 0 t ∧
      ((fresh 0).after history).collected 0 = t.toList ∧
      ∀ n ∈ t.toList, ∀ m ∈ t.toList, n.isLoop → m.isLoop → n ≠ m → n.tag ≠ m.tag := by
  intro template history
  have hopened : OpenedWith 0 history 0 template :=
    ⟨0, by decide +kernel, by decide +kernel⟩
  have hslots : ((fresh 0).after history).loopHeight 0 ≤ template.unboundCount := by
    decide +kernel
  exact ⟨hopened, hslots, history_tags_distinct 0 history hopened hslots⟩

/-- Two loops without a slot have the tag of the loop around them. -/
example : (((fresh 0).after [(0, .openKernel "copy" .unbound none), (0, .openLoop none),
    (0, .closeLoop), (0, .openLoop none)]).nodes.toList.map Node.tag).tail =
    List.replicate 3 (.bound (.symbolic "tile0")) := by
  decide +kernel

end Context

end TileTrace
