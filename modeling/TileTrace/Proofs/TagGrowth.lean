import TileTrace.Proofs.NodeChanges
import TileTrace.Proofs.ScopeStack
import TileTrace.Proofs.SlotFilling

/-!
# How tags grow

The tag of a loop is made from the tag of the scope around it, by binding its
first slot to the symbol of the loop. So all that counts is the template of the
kernel and the symbols on the way down to the loop. `TagsGrow` says what one loop
adds, `Operation.Step.tagsGrow` that every operation keeps this, and
`history_tags`, the main theorem, unfolds it down the path from the kernel.
-/

namespace TileTrace

namespace Context

/-- Every loop has the tag of the node around it, with its own symbol in the first slot. -/
def TagsGrow (c : Context) : Prop :=
  ∀ {i : Nat} {n : Node}, c.node? i = some n → n.isLoop →
    ∃ (p : NodeId) (outer : Node) (symbol : Value), n.parent = some p ∧ c.node? p = some outer ∧
      n.induction = .ok symbol ∧ n.tag = outer.tag.bind (.bound symbol)

end Context

namespace Operation

open Context

variable {c d : Context} {operation : Operation}

/-- The nodes that are added have grown tags. -/
private theorem Adds.tagsGrow (h : c.IsArranged) (hstep : Step c operation d) {i : Nat} {n : Node}
    (hadds : Adds c operation i n) (hloop : n.isLoop) :
    ∃ (p : NodeId) (outer : Node) (symbol : Value), n.parent = some p ∧ d.node? p = some outer ∧
      n.induction = .ok symbol ∧ n.tag = outer.tag.bind (.bound symbol) := by
  cases hadds with
  | kernel name template extent => cases hloop
  | grid name template extent =>
      cases hstep with
      | openKernel _ _ _ hscope =>
          exact ⟨c.size, _, _, rfl, c.node?_withKernel_kernel name template extent, rfl, rfl⟩
  | loop extent scope outer hscope houter =>
      obtain ⟨outer', houter', hchanges⟩ := hstep.changes houter
      refine ⟨outer.id, outer', _, rfl, ?_, rfl, ?_⟩
      · rw [h.id_eq houter, houter']
      · rw [hchanges.tag]
        rfl
  | step origin tag requested inputs scope outer definitionId hscope houter => cases hloop

/-- Every operation that succeeds keeps tags grown. -/
theorem Step.tagsGrow (h : c.IsArranged) (hgrow : c.TagsGrow) (hstep : Step c operation d) :
    d.TagsGrow := by
  intro i n hn hloop
  cases hold : c.node? i with
  | none => exact (hstep.adds hold hn).tagsGrow h hstep hloop
  | some m =>
      obtain ⟨n', hn', hchanges⟩ := hstep.changes hold
      obtain rfl := Option.some.inj (hn.symm.trans hn')
      have hplace := hchanges.place
      have hloop' : m.isLoop := by
        have hkind : n.kind = m.kind := congrArg Place.kind hplace
        rw [Node.isLoop_iff] at hloop ⊢
        rwa [← hkind]
      obtain ⟨p, outer, symbol, hparent, houter, hsymbol, htag⟩ := hgrow hold hloop'
      obtain ⟨outer', houter', houterChanges⟩ := hstep.changes houter
      refine ⟨p, outer', symbol, (congrArg Place.parent hplace).trans hparent, houter', ?_, ?_⟩
      · rw [hchanges.induction, hsymbol]
      · rw [hchanges.tag, htag, houterChanges.tag]

end Operation

namespace Context

variable {c d : Context}

/-- Tags are grown after every history. -/
theorem tagsGrow_after (id : ContextId) (history : History) :
    ((fresh id).after history).TagsGrow := by
  refine (after_induction (P := fun c => c.IsArranged ∧ c.TagsGrow) history
    ⟨isArranged_fresh id, nofun⟩ ?_ ?_).2
  · intro c thread hc
    exact hc
  · intro c operation changed ⟨hc, hgrow⟩ hstep
    exact ⟨(hstep.arranged hc).1, hstep.tagsGrow hc hgrow⟩

/-! ## Down the path from the kernel -/

/-- The induction symbol of the loop with the given number. -/
def symbolOf? (c : Context) (id : NodeId) : Option Value :=
  (c.node? id).bind fun n => n.induction.toOption

/-- The tag is the template with the symbols of the loops in its first slots. -/
def GrownTag (c : Context) (template : Coordinate) (loops : List NodeId)
    (tag : Coordinate) : Prop :=
  ∃ symbols : List Value, loops.map c.symbolOf? = symbols.map some ∧
    tag = template.fill (symbols.map .bound)

/-- One more loop puts one more symbol into a slot. -/
theorem GrownTag.bind {template : Coordinate} {loops : List NodeId} {tag : Coordinate}
    (h : c.GrownTag template loops tag) {i : Nat} {n : Node} (hn : c.node? i = some n)
    {symbol : Value} (hsymbol : n.induction = .ok symbol) :
    c.GrownTag template (loops ++ [i]) (tag.bind (.bound symbol)) := by
  obtain ⟨symbols, hsymbols, rfl⟩ := h
  refine ⟨symbols ++ [symbol], ?_, ?_⟩
  · simp [hsymbols, symbolOf?, hn, hsymbol, Except.toOption]
  · rw [Coordinate.fill_bind _ _ _ (by simp [Coordinate.unboundCount]), List.map_append]
    rfl

/-- The tag of a loop is the tag of its kernel with the symbols on the path in its first slots. -/
theorem IsArranged.grownTag (h : c.IsArranged) (hgrow : c.TagsGrow) {i : Nat} {n : Node}
    (hn : c.node? i = some n) (hloop : n.isLoop) :
    ∃ (loops : List NodeId) (k : NodeId) (kernel : Node), c.lineage n = loops ++ [k] ∧
      c.node? k = some kernel ∧ kernel.isKernel ∧ c.GrownTag kernel.tag loops.reverse n.tag := by
  refine h.loop_induction (P := fun _ n =>
    ∃ (loops : List NodeId) (k : NodeId) (kernel : Node), c.lineage n = loops ++ [k] ∧
      c.node? k = some kernel ∧ kernel.isKernel ∧ c.GrownTag kernel.tag loops.reverse n.tag)
    ?_ ?_ hn hloop
  · intro k n kernel hn hgrid hparent hkernel hisKernel
    have hloop : n.isLoop := Node.isLoop_iff.2 (.inl (Node.isGridLoop_iff.1 hgrid))
    obtain ⟨p, outer, symbol, hp, houter, hsymbol, htag⟩ := hgrow hn hloop
    obtain rfl := Option.some.inj (hparent.symm.trans hp)
    obtain rfl := Option.some.inj (hkernel.symm.trans houter)
    have htop : c.GrownTag kernel.tag [] kernel.tag := ⟨[], rfl, (kernel.tag.fill_nil).symm⟩
    refine ⟨[k + 1], k, kernel, h.lineage_grid hn hparent hkernel hisKernel, hkernel, hisKernel, ?_⟩
    rw [htag]
    exact htop.bind hn hsymbol
  · intro i n p outer hn hloop hgrid hparent houter _ ih
    obtain ⟨loops, k, kernel, hlineage, hkernel, hisKernel, hgrown⟩ := ih
    obtain ⟨p', outer', symbol, hp, houter', hsymbol, htag⟩ := hgrow hn hloop
    obtain rfl := Option.some.inj (hparent.symm.trans hp)
    obtain rfl := Option.some.inj (houter.symm.trans houter')
    refine ⟨i :: loops, k, kernel, ?_, hkernel, hisKernel, ?_⟩
    · rw [h.lineage_child hn hparent houter, hlineage, List.cons_append]
    · rw [htag, List.reverse_cons]
      exact hgrown.bind hn hsymbol

end Context

/-! ## Templates -/

/-- The template of the kernel that an operation opens. -/
def Operation.templates : Operation → List Coordinate
  | openKernel _ template _ => [template]
  | _ => []

namespace Context

variable {c d : Context}

/-- The templates of the kernels that a history opens, in order. -/
def openedTemplates (c : Context) : History → List Coordinate
  | [] => []
  | (thread, operation) :: history =>
      match operation.perform thread c with
      | (.ok _, changed) => operation.templates ++ openedTemplates changed history
      | (.error _, changed) => openedTemplates changed history

/-- The tags of the kernels, in order. -/
def kernelTags (c : Context) : List Coordinate :=
  ((c.nodes.toList.map fun n => (n.isKernel, n.tag)).filter Prod.fst).map Prod.snd

/-- Every operation that succeeds keeps the tags of kernels, and adds the template of a kernel that
it opens. -/
theorem kernelTags_step {operation : Operation} (hstep : operation.Step c d) :
    d.kernelTags = c.kernelTags ++ operation.templates := by
  have hkeeps {id : NodeId} {change : Node → Node}
      (h : ∀ n, ((change n).isKernel, (change n).tag) = (n.isKernel, n.tag)) :
      (c.modifyNode id change).kernelTags = c.kernelTags ++ [] := by
    rw [List.append_nil, kernelTags, c.map_modifyNode id h, kernelTags]
  cases hstep with
  | openKernel name template extent hscope =>
      rw [kernelTags, Operation.toList_withKernel]
      simp [kernelTags, nextKernel, nextGrid, Node.isKernel, Operation.templates]
  | openLoop extent scope outer hscope houter =>
      rw [kernelTags, Operation.toList_withLoop]
      simp [kernelTags, nextLoop, Node.isKernel, Operation.templates]
  | recordStep origin tag requested inputs scope outer definitionId registry hscope houter hbind =>
      rw [kernelTags, Operation.toList_withStep]
      simp [kernelTags, nextStep, Node.isKernel, Operation.templates]
  | closeLoop scope loop outer hscope hloop hgrid hparent => exact (List.append_nil _).symm
  | closeKernel scope loop kernel hscope hloop hkernel hgrid => exact (List.append_nil _).symm
  | addKernelInput handle scope hscope =>
      exact hkeeps fun n => by obtain ⟨_, _, _, _, _ | _ | _⟩ := n <;> rfl
  | addKernelOutput handle scope hscope =>
      exact hkeeps fun n => by obtain ⟨_, _, _, _, _ | _ | _⟩ := n <;> rfl
  | setVisualize ref visualize hopen => exact hkeeps fun _ => rfl

/-- The tags of the kernels are the templates that they were opened with. -/
theorem kernelTags_after (c : Context) (history : History) :
    (c.after history).kernelTags = c.kernelTags ++ c.openedTemplates history := by
  induction history generalizing c with
  | nil => exact (List.append_nil _).symm
  | cons head history ih =>
      obtain ⟨thread, operation⟩ := head
      rw [after_cons, ih, openedTemplates]
      cases hperform : operation.perform thread c with
      | mk result changed =>
          cases result with
          | ok answer =>
              have hstep := kernelTags_step (Operation.perform_ok hperform)
              dsimp only
              rw [hstep, List.append_assoc]
              rfl
          | error e =>
              obtain rfl | rfl := Operation.perform_error hperform <;> rfl

/-- The kernels are found with their tags. -/
theorem IsArranged.kernels_tags (h : c.IsArranged) :
    (c.kernels.map fun k => (c.node? k).map Node.tag) = c.kernelTags.map some := by
  rw [kernels, kernelTags, List.filter_map, List.map_map, List.map_map, List.map_map]
  refine List.map_congr_left fun n hn => ?_
  have hfound := h.node?_of_mem (List.mem_filter.1 hn).1
  simp [hfound]

/-- The kernel with the given number was opened with the template. -/
def OpenedWith (id : ContextId) (history : History) (k : NodeId) (template : Coordinate) : Prop :=
  ∃ j : Nat, ((fresh id).after history).kernels[j]? = some k ∧
    ((fresh id).openedTemplates history)[j]? = some template

/-- The kernels stand in the order of the templates that they were opened with. -/
theorem openedTemplates_of_kernels {id : ContextId} {history : History} {j : Nat} {k : NodeId}
    {kernel : Node} (hj : ((fresh id).after history).kernels[j]? = some k)
    (hk : ((fresh id).after history).node? k = some kernel) :
    ((fresh id).openedTemplates history)[j]? = some kernel.tag := by
  have htag := congrArg (·[j]?) (isArranged_after id history).kernels_tags
  simp only [List.getElem?_map, hj, Option.map_some, hk] at htag
  obtain ⟨template, htemplate, heq⟩ := Option.map_eq_some_iff.1 htag.symm
  rw [kernelTags_after] at htemplate
  cases heq
  exact htemplate

/-- A kernel was opened with its tag. -/
theorem openedWith (id : ContextId) (history : History) {k : NodeId} {kernel : Node}
    (hk : ((fresh id).after history).node? k = some kernel) (hkernel : kernel.isKernel) :
    OpenedWith id history k kernel.tag := by
  have h := isArranged_after id history
  obtain ⟨j, hj⟩ := List.mem_iff_getElem?.1 (h.mem_kernels.2 ⟨kernel, hk, hkernel⟩)
  exact ⟨j, hj, openedTemplates_of_kernels hj hk⟩

/-- Tags grow with the scopes. The kernels have the templates that they were opened with. Every loop
has the template of its kernel as tag, with the symbols of the loops on the path from the grid loop
to the loop in the first slots. So the tag of the current scope has as many slots less than the
template as loops are open. -/
theorem history_tags (id : ContextId) (history : History) :
    let c := (fresh id).after history
    ((c.kernels.map fun k => (c.node? k).map Node.tag) =
      ((fresh id).openedTemplates history).map some) ∧
    (∀ (i : NodeId) (n : Node), c.node? i = some n → n.isLoop →
      ∃ (loops : List NodeId) (k : NodeId) (template : Coordinate), c.Climbs i (loops ++ [k]) ∧
        OpenedWith id history k template ∧ c.GrownTag template loops.reverse n.tag) ∧
    ∀ (scope : Scope), c.scope = some scope →
      ∃ (template tag : Coordinate), OpenedWith id history scope.kernel template ∧
        c.currentTag = .ok tag ∧
        tag.unboundCount = template.unboundCount - (c.loopDepth + 1) := by
  intro c
  have h : c.IsArranged := isArranged_after id history
  have hgrow : c.TagsGrow := tagsGrow_after id history
  refine ⟨?_, ?_, ?_⟩
  · rw [h.kernels_tags, show c.kernelTags = _ from kernelTags_after (fresh id) history]
    rfl
  · intro i n hn hloop
    obtain ⟨loops, k, kernel, hlineage, hkernel, hisKernel, hgrown⟩ := h.grownTag hgrow hn hloop
    have hclimbs : c.Climbs i (loops ++ [k]) := hlineage ▸ h.climbs_lineage hn
    exact ⟨loops, k, kernel.tag, hclimbs, openedWith id history hkernel hisKernel, hgrown⟩
  · intro scope hscope
    obtain ⟨loop, hcurrent⟩ := h.exists_currentLoop hscope
    obtain ⟨scope', hscope', hloop⟩ := currentLoop?_eq_some.1 hcurrent
    obtain rfl := Option.some.inj (hscope.symm.trans hscope')
    obtain ⟨loops, k, kernel, hlineage, hkernel, hisKernel, symbols, hsymbols, htag⟩ :=
      h.grownTag hgrow hloop (h.isLoop_of_scope hscope hloop)
    have hroot : k = scope.kernel := by
      rw [← h.rootOf_currentLoop hscope hloop, eq_comm, h.rootOf_eq_iff hloop hkernel hisKernel,
        hlineage]
      exact List.mem_append_right _ List.mem_cons_self
    refine ⟨kernel.tag, loop.tag, hroot ▸ openedWith id history hkernel hisKernel,
      by rw [currentTag, hcurrent], ?_⟩
    have hsymbolCount : symbols.length = c.loopDepth + 1 := by
      have hlength := (h.length_lineage hcurrent).1
      have hcount := congrArg List.length hsymbols
      simp only [hlineage, List.length_append, List.length_singleton, List.length_map,
        List.length_reverse] at hlength hcount
      omega
    rw [htag, Coordinate.unboundCount_fill _ _ (by simp [Coordinate.unboundCount]), List.length_map,
      hsymbolCount]

/-- A kernel with one slot, and a loop in it that finds no slot left. -/
theorem history_tags_surplus :
    let history : History := [(0, .openKernel "copy" .unbound none), (0, .openLoop none)]
    ∃ (n : Node) (loops : List NodeId) (k : NodeId) (template : Coordinate),
      ((fresh 0).after history).node? 2 = some n ∧ n.isLoop ∧
      ((fresh 0).after history).Climbs 2 (loops ++ [k]) ∧ OpenedWith 0 history k template ∧
      ((fresh 0).after history).GrownTag template loops.reverse n.tag := by
  intro history
  have hn : ((fresh 0).after history).node? 2 = some _ := rfl
  obtain ⟨loops, k, template, htag⟩ := (history_tags 0 history).2.1 2 _ hn rfl
  exact ⟨_, loops, k, template, hn, rfl, htag⟩

end Context

end TileTrace
