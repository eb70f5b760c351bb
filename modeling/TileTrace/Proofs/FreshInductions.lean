import TileTrace.Proofs.Atomicity
import TileTrace.Proofs.TagGrowth

/-!
# Fresh inductions

The two symbol sources of a context number the loops. `InductionsInOrder` says
that the inductions of the grid loops are the symbols that the one source has
handed out, in order, and those of the nested loops the symbols of the other
one, and that the grid loops follow the kernels. Every operation keeps this, by
`Operation.Step.inductionsInOrder`. Since symbols of two sources differ, and so
do those of one, no two loops have the same induction: this is
`InductionsInOrder.eq_of_induction`, and `history_inductions` is the main
theorem.
-/

namespace TileTrace

namespace SymbolSource

/-- The symbols handed out so far, in order. -/
def given (source : SymbolSource) : List Value :=
  (List.range source.count).map fun number => .symbolic (nameAt source.stem number)

/-- The next symbol is handed out after the others. -/
theorem given_next (source : SymbolSource) :
    source.next.2.given = source.given ++ [source.next.1] := by
  simp [given, next, List.range_succ]

theorem getElem?_given {source : SymbolSource} {number : Nat} {symbol : Value}
    (h : source.given[number]? = some symbol) :
    symbol = .symbolic (nameAt source.stem number) := by
  rw [given, List.getElem?_map] at h
  obtain ⟨n, hn, rfl⟩ := Option.map_eq_some_iff.1 h
  obtain ⟨hlt, rfl⟩ := List.getElem?_eq_some_iff.1 hn
  rw [List.getElem_range]

end SymbolSource

namespace Context

/-- The nodes of a kind, in the order of their numbers. -/
def ofKind (c : Context) (kind : NodeKind) : List Node :=
  c.nodes.toList.filter (·.kind = kind)

/-- The numbers of the nodes of a kind, with their induction symbols if they have some. -/
def inductionsOf (c : Context) (kind : NodeKind) : List (NodeId × Except Error Value) :=
  (c.ofKind kind).map fun n => (n.id, n.induction)

/-- The inductions of the loops are the symbols handed out so far. -/
structure InductionsInOrder (c : Context) : Prop where
  tiles_stem : c.tiles.stem = "tile"
  coords_stem : c.coords.stem = "coord"
  /-- Grid loops follow the kernels. -/
  grid_ids : (c.inductionsOf .grid).map Prod.fst = c.kernels.map gridOf
  grid : (c.inductionsOf .grid).map Prod.snd = c.tiles.given.map .ok
  nested : (c.inductionsOf .nested).map Prod.snd = c.coords.given.map .ok

variable {c d : Context}

theorem mem_ofKind {kind : NodeKind} {n : Node} :
    n ∈ c.ofKind kind ↔ n ∈ c.nodes.toList ∧ n.kind = kind := by
  rw [ofKind, List.mem_filter, decide_eq_true_iff]

theorem kernels_eq_map (c : Context) : c.kernels = (c.inductionsOf .kernel).map Prod.fst := by
  have hkind : c.nodes.toList.filter (·.isKernel) = c.ofKind .kernel :=
    List.filter_congr fun n _ => by rw [Bool.eq_iff_iff, Node.isKernel_iff, decide_eq_true_iff]
  rw [kernels, hkind, inductionsOf, List.map_map]
  rfl

/-- Nodes that are added at the end come last among those of their kind. -/
theorem inductionsOf_append {more : List Node} (h : d.nodes.toList = c.nodes.toList ++ more)
    (kind : NodeKind) :
    d.inductionsOf kind = c.inductionsOf kind ++
      (more.filter (·.kind = kind)).map fun n => (n.id, n.induction) := by
  rw [inductionsOf, ofKind, h, List.filter_append, List.map_append]
  rfl

/-- A change of a node that keeps its place and its induction keeps all inductions. -/
theorem inductionsOf_modifyNode (c : Context) (id : NodeId) {change : Node → Node}
    (h : ∀ n, ((change n).place, (change n).induction) = (n.place, n.induction))
    (kind : NodeKind) : (c.modifyNode id change).inductionsOf kind = c.inductionsOf kind := by
  have heq (c : Context) : c.inductionsOf kind =
      ((c.nodes.toList.map fun n => (n.place, n.induction)).filter (·.1.kind = kind)).map
        fun q => (q.1.id, q.2) := by
    rw [List.filter_map, List.map_map]
    rfl
  rw [heq, heq, c.map_modifyNode id h]

namespace InductionsInOrder

theorem fresh (id : ContextId) : (Context.fresh id).InductionsInOrder :=
  ⟨rfl, rfl, rfl, rfl, rfl⟩

theorem withKernel (h : c.InductionsInOrder) (name : String) (template : Coordinate)
    (extent : Option Value) : (c.withKernel name template extent).InductionsInOrder := by
  have hlists := inductionsOf_append (Operation.toList_withKernel c name template extent)
  refine ⟨h.tiles_stem, h.coords_stem, ?_, ?_, ?_⟩
  · rw [kernels_eq_map, hlists, hlists, List.map_append, List.map_append, h.grid_ids,
      ← kernels_eq_map, List.map_append]
    rfl
  · rw [hlists, List.map_append, h.grid]
    exact (c.tiles.given_next ▸ List.map_append).symm
  · rw [hlists, List.map_append, h.nested]
    exact List.append_nil _

theorem withLoop (h : c.InductionsInOrder) (kernel : NodeId) (outer : Node)
    (extent : Option Value) : (c.withLoop kernel outer extent).InductionsInOrder := by
  have hlists := inductionsOf_append (Operation.toList_withLoop c kernel outer extent)
  refine ⟨h.tiles_stem, h.coords_stem, ?_, ?_, ?_⟩
  · rw [kernels_eq_map, hlists, hlists, List.map_append, List.map_append, h.grid_ids,
      ← kernels_eq_map, List.map_append]
    rfl
  · rw [hlists, List.map_append, h.grid]
    exact List.append_nil _
  · rw [hlists, List.map_append, h.nested]
    exact (c.coords.given_next ▸ List.map_append).symm

/-- Whatever keeps the sources and the inductions of all kinds keeps them in order. -/
theorem of_eq (h : c.InductionsInOrder) (htiles : d.tiles = c.tiles) (hcoords : d.coords = c.coords)
    (hlists : ∀ kind : NodeKind, kind ≠ .step → d.inductionsOf kind = c.inductionsOf kind) :
    d.InductionsInOrder := by
  refine ⟨htiles ▸ h.tiles_stem, hcoords ▸ h.coords_stem, ?_, ?_, ?_⟩
  · rw [kernels_eq_map, hlists .kernel nofun, ← kernels_eq_map, hlists .grid nofun, h.grid_ids]
  · rw [hlists .grid nofun, h.grid, htiles]
  · rw [hlists .nested nofun, h.nested, hcoords]

end InductionsInOrder

end Context

open Context

/-- Every operation that succeeds keeps the inductions in order. -/
theorem Operation.Step.inductionsInOrder {c d : Context} {operation : Operation}
    (h : c.InductionsInOrder) (hstep : operation.Step c d) : d.InductionsInOrder := by
  cases hstep with
  | openKernel name template extent hscope => exact h.withKernel name template extent
  | openLoop extent scope outer hscope houter => exact h.withLoop scope.kernel outer extent
  | recordStep origin tag requested inputs scope outer definitionId registry hscope houter hbind =>
      refine h.of_eq rfl rfl fun kind hkind => ?_
      rw [inductionsOf_append (toList_withStep ..), List.filter_cons_of_neg]
      · exact List.append_nil _
      · exact fun heq => hkind (of_decide_eq_true heq).symm
  | closeLoop scope loop outer hscope hloop hgrid hparent => exact h.of_eq rfl rfl fun _ _ => rfl
  | closeKernel scope loop kernel hscope hloop hkernel hgrid =>
      exact h.of_eq rfl rfl fun _ _ => rfl
  | addKernelInput handle scope hscope =>
      refine h.of_eq rfl rfl fun kind _ => c.inductionsOf_modifyNode _ (fun n => ?_) kind
      obtain ⟨_, _, _, _, _ | _ | _⟩ := n <;> rfl
  | addKernelOutput handle scope hscope =>
      refine h.of_eq rfl rfl fun kind _ => c.inductionsOf_modifyNode _ (fun n => ?_) kind
      obtain ⟨_, _, _, _, _ | _ | _⟩ := n <;> rfl
  | setVisualize ref visualize hopen =>
      refine h.of_eq rfl rfl fun kind _ => c.inductionsOf_modifyNode _ (fun n => ?_) kind
      rfl

namespace Context

variable {c : Context}

/-- Inductions are in order after every history. -/
theorem inductionsInOrder_after (id : ContextId) (history : History) :
    ((fresh id).after history).InductionsInOrder := by
  refine after_induction (P := InductionsInOrder) history (.fresh id) ?_ ?_
  · intro c thread h
    exact h.of_eq rfl rfl fun _ _ => rfl
  · intro c operation changed h hstep
    exact hstep.inductionsInOrder h

namespace InductionsInOrder

/-- The numbers and inductions of the loops of a kind, by position. -/
private theorem getElem?_inductionsOf {kind : NodeKind} {j : Nat} {n : Node}
    (hn : (c.ofKind kind)[j]? = some n) : (c.inductionsOf kind)[j]? = some (n.id, n.induction) := by
  rw [inductionsOf, List.getElem?_map, hn]
  rfl

/-- An induction is the symbol at its position. -/
private theorem induction_of_given {kind : NodeKind} {source : SymbolSource}
    (hgiven : (c.inductionsOf kind).map Prod.snd = source.given.map .ok) {j : Nat} {n : Node}
    (hn : (c.ofKind kind)[j]? = some n) :
    n.induction = .ok (.symbolic (SymbolSource.nameAt source.stem j)) := by
  have hsymbol := congrArg (·[j]?) hgiven
  simp only [List.getElem?_map, getElem?_inductionsOf hn, Option.map_some] at hsymbol
  obtain ⟨symbol, hsymbol, hok⟩ := Option.map_eq_some_iff.1 hsymbol.symm
  rw [← hok, SymbolSource.getElem?_given hsymbol]

variable (h : c.InductionsInOrder)
include h

/-- The grid loops are numbered. -/
theorem induction_grid {k : Nat} {n : Node} (hn : (c.ofKind .grid)[k]? = some n) :
    n.induction = .ok (.symbolic (SymbolSource.nameAt "tile" k)) := by
  rw [induction_of_given h.grid hn, h.tiles_stem]

/-- The nested loops are numbered. -/
theorem induction_nested {j : Nat} {n : Node} (hn : (c.ofKind .nested)[j]? = some n) :
    n.induction = .ok (.symbolic (SymbolSource.nameAt "coord" j)) := by
  rw [induction_of_given h.nested hn, h.coords_stem]

/-- The grid loops stand in the order of their kernels. -/
theorem exists_grid {k : Nat} {kernel : NodeId} (hkernel : c.kernels[k]? = some kernel) :
    ∃ grid, (c.ofKind .grid)[k]? = some grid ∧ grid.id = gridOf kernel := by
  have hids := congrArg (·[k]?) h.grid_ids
  rw [List.getElem?_map, List.getElem?_map, hkernel, inductionsOf, List.getElem?_map,
    Option.map_map] at hids
  exact Option.map_eq_some_iff.1 hids

/-- The induction of a loop is a symbol with its position among the loops of its kind. -/
theorem exists_number {n : Node} (hn : n ∈ c.nodes.toList) (hloop : n.isLoop) :
    ∃ number,
      (c.ofKind .grid)[number]? = some n ∧
        n.induction = .ok (.symbolic (SymbolSource.nameAt "tile" number)) ∨
      (c.ofKind .nested)[number]? = some n ∧
        n.induction = .ok (.symbolic (SymbolSource.nameAt "coord" number)) := by
  obtain hgrid | hnested := Node.isLoop_iff.1 hloop
  · obtain ⟨number, hnumber⟩ := List.mem_iff_getElem?.1 (mem_ofKind.2 ⟨hn, hgrid⟩)
    exact ⟨number, .inl ⟨hnumber, h.induction_grid hnumber⟩⟩
  · obtain ⟨number, hnumber⟩ := List.mem_iff_getElem?.1 (mem_ofKind.2 ⟨hn, hnested⟩)
    exact ⟨number, .inr ⟨hnumber, h.induction_nested hnumber⟩⟩

/-- Loops with the same induction are the same. -/
theorem eq_of_induction {n m : Node} (hn : n ∈ c.nodes.toList) (hm : m ∈ c.nodes.toList)
    (hloop : n.isLoop) (hloop' : m.isLoop) (heq : n.induction = m.induction) : n = m := by
  obtain ⟨k, ⟨hk, hsymbol⟩ | ⟨hk, hsymbol⟩⟩ := h.exists_number hn hloop <;>
    obtain ⟨j, ⟨hj, hsymbol'⟩ | ⟨hj, hsymbol'⟩⟩ := h.exists_number hm hloop' <;>
    rw [hsymbol, hsymbol', Except.ok.injEq, Value.symbolic.injEq] at heq
  · obtain rfl := SymbolSource.nameAt_injective heq
    exact Option.some.inj (hk.symm.trans hj)
  · exact absurd heq (SymbolSource.nameAt_tile_ne_coord k j)
  · exact absurd heq.symm (SymbolSource.nameAt_tile_ne_coord j k)
  · obtain rfl := SymbolSource.nameAt_injective heq
    exact Option.some.inj (hk.symm.trans hj)

end InductionsInOrder

end Context

end TileTrace
