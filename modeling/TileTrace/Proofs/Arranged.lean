import Mathlib.Tactic.Set
import TileTrace.Proofs.Forest
import TileTrace.Proofs.Operation

/-!
# Arranged contexts

What never changes about a node is its place: its number, its parent, and its
kind. `Arranged` says how the places of a context fit together and where its
scope is: the current loop lies on the path that leads from the latest node to
its kernel. Every operation keeps it, by `Operation.Step.arranged`, and so does every
history, by `Context.isArranged_after`.
-/

namespace TileTrace

/-- The kinds of nodes. -/
inductive NodeKind where
  | kernel
  | grid
  | nested
  | step
  deriving DecidableEq, Repr

/-- The kind of a node. -/
def Node.kind (n : Node) : NodeKind :=
  match n.payload with
  | .kernel _ _ _ => .kernel
  | .loop .grid _ _ => .grid
  | .loop .nested _ _ => .nested
  | .step _ _ _ _ => .step

namespace Node

theorem isKernel_iff {n : Node} : n.isKernel = true ↔ n.kind = .kernel := by
  obtain ⟨_, _, _, _, _ | ⟨_ | _, _, _⟩ | _⟩ := n <;> simp [isKernel, kind]

theorem isGridLoop_iff {n : Node} : n.isGridLoop = true ↔ n.kind = .grid := by
  obtain ⟨_, _, _, _, _ | ⟨_ | _, _, _⟩ | _⟩ := n <;> simp [isGridLoop, kind]

theorem isLoop_iff {n : Node} : n.isLoop = true ↔ n.kind = .grid ∨ n.kind = .nested := by
  obtain ⟨_, _, _, _, _ | ⟨_ | _, _, _⟩ | _⟩ := n <;> simp [isLoop, kind]

theorem isStep_iff {n : Node} : n.isStep = true ↔ n.kind = .step := by
  obtain ⟨_, _, _, _, _ | ⟨_ | _, _, _⟩ | _⟩ := n <;> simp [isStep, kind]

end Node

/-- What never changes about a node. -/
structure Place where
  id : NodeId
  parent : Option NodeId
  kind : NodeKind
  deriving DecidableEq

/-- The place of a node. -/
def Node.place (n : Node) : Place :=
  ⟨n.id, n.parent, n.kind⟩

/-- The places of the nodes of a context, in order. -/
def Context.places (c : Context) : List Place :=
  c.nodes.toList.map Node.place

/-- The parents of places, by position. -/
def Place.parents (fs : List Place) : List (Option NodeId) :=
  fs.map (·.parent)

namespace Context

/-- The place at a position is that of the node there. -/
theorem places_eq_some {c : Context} {i : Nat} {f : Place} :
    c.places[i]? = some f ↔ ∃ n, c.node? i = some n ∧ n.place = f := by
  rw [places, List.getElem?_map, Option.map_eq_some_iff, Array.getElem?_toList]
  rfl

theorem length_places (c : Context) : c.places.length = c.size := by
  simp [places, size]

theorem parents_places (c : Context) : Place.parents c.places = Tree.links c.nodes.toList := by
  simp [Place.parents, places, Tree.links, Node.place, Function.comp_def]

/-- The kernels can be told from the places of the nodes. -/
theorem kernels_eq_places (c : Context) :
    c.kernels = (c.places.filter (·.kind = .kernel)).map (·.id) := by
  have hkind : c.nodes.toList.filter (·.isKernel) =
      c.nodes.toList.filter fun n => n.place.kind = .kernel :=
    List.filter_congr fun n _ => by rw [Bool.eq_iff_iff, Node.isKernel_iff, decide_eq_true_iff]; rfl
  rw [kernels, hkind, places, List.filter_map, List.map_map]
  rfl

/-- The children of a node can be told from the places of the nodes. -/
theorem children_eq_places (c : Context) (p : NodeId) :
    c.children p = (c.places.filter (·.parent = some p)).map (·.id) := by
  rw [children, places, List.filter_map, List.map_map]
  rfl

section

variable {c d : Context} {more : List Place}

/-- The kernels after places were added. -/
theorem kernels_of_append (h : d.places = c.places ++ more) :
    d.kernels = c.kernels ++ (more.filter (·.kind = .kernel)).map (·.id) := by
  rw [kernels_eq_places, h, List.filter_append, List.map_append, ← kernels_eq_places]

/-- The children of a node after places were added. -/
theorem children_of_append (h : d.places = c.places ++ more) (p : NodeId) :
    d.children p = c.children p ++ (more.filter (·.parent = some p)).map (·.id) := by
  rw [children_eq_places, h, List.filter_append, List.map_append, ← children_eq_places]

theorem kernels_of_places (h : d.places = c.places) : d.kernels = c.kernels := by
  rw [kernels_eq_places, h, ← kernels_eq_places]

theorem children_of_places (h : d.places = c.places) (p : NodeId) :
    d.children p = c.children p := by
  rw [children_eq_places, h, ← children_eq_places]

end

end Context

open TileTrace.Tree

/-- How a place fits the places of a record: a kernel is followed by its grid loop, and a nested
loop or a step hangs below a loop on the path from the node before it. -/
inductive Fits (fs : List Place) (i : Nat) : Place → Prop where
  | kernel (id : NodeId) (grid : Place) :
      fs[i + 1]? = some grid → grid.kind = .grid → Fits fs i ⟨id, none, .kernel⟩
  | grid (id k : NodeId) (kernel : Place) :
      i = k + 1 → fs[k]? = some kernel → kernel.kind = .kernel → Fits fs i ⟨id, some k, .grid⟩
  | inner (id p : NodeId) (kind : NodeKind) (outer : Place) :
      kind = .nested ∨ kind = .step → fs[p]? = some outer →
      outer.kind = .grid ∨ outer.kind = .nested → OnPath (Place.parents fs) i p →
      Fits fs i ⟨id, some p, kind⟩

namespace Fits

variable {fs : List Place} {i : Nat} {f : Place}

/-- A parent lies on the path from the node before. -/
theorem onPath (h : Fits fs i f) {p : Nat} (hparent : f.parent = some p) :
    OnPath (Place.parents fs) i p := by
  cases h with
  | kernel => cases hparent
  | grid id k kernel hi => cases hparent; exact ⟨_, hi, .self⟩
  | inner id q kind outer hkind hq houter hpath => cases hparent; exact hpath

/-- A kernel has no parent and is followed by a grid loop. -/
theorem of_kernel (h : Fits fs i f) (hkind : f.kind = .kernel) :
    f.parent = none ∧ ∃ grid, fs[i + 1]? = some grid ∧ grid.kind = .grid := by
  cases h with
  | kernel id grid hgrid hisGrid => exact ⟨rfl, grid, hgrid, hisGrid⟩
  | grid => cases hkind
  | inner id p kind outer hinner =>
      obtain rfl | rfl := hinner <;> cases hkind

/-- A grid loop hangs below the kernel before it. -/
theorem of_grid (h : Fits fs i f) (hkind : f.kind = .grid) :
    ∃ (k : Nat) (kernel : Place), i = k + 1 ∧ f.parent = some k ∧ fs[k]? = some kernel ∧
      kernel.kind = .kernel := by
  cases h with
  | kernel => cases hkind
  | grid id k kernel hi hk hisKernel => exact ⟨k, kernel, hi, rfl, hk, hisKernel⟩
  | inner id p kind outer hinner =>
      obtain rfl | rfl := hinner <;> cases hkind

/-- A nested loop or a step hangs below a loop. -/
theorem of_inner (h : Fits fs i f) (hkind : f.kind = .nested ∨ f.kind = .step) :
    ∃ (p : Nat) (outer : Place), f.parent = some p ∧ fs[p]? = some outer ∧
      (outer.kind = .grid ∨ outer.kind = .nested) := by
  cases h with
  | kernel => obtain hkind | hkind := hkind <;> cases hkind
  | grid => obtain hkind | hkind := hkind <;> cases hkind
  | inner id p kind outer hinner hp houter => exact ⟨p, outer, rfl, hp, houter⟩

end Fits

/-- How a scope fits the places of a record: the current loop lies on the path from the latest node
to the kernel of the scope. -/
structure ScopeFits (fs : List Place) (scope : Scope) : Prop where
  kernel : ∃ f, fs[scope.kernel]? = some f ∧ f.kind = .kernel
  loop : ∃ f, fs[scope.loop]? = some f ∧ (f.kind = .grid ∨ f.kind = .nested)
  above : Above (Place.parents fs) scope.kernel scope.loop
  onPath : OnPath (Place.parents fs) fs.length scope.loop

/-- Places that fit together, numbered by position, with a scope that fits them. -/
structure Arranged (fs : List Place) (scope : Option Scope) : Prop where
  id_eq : ∀ {i : Nat} {f : Place}, fs[i]? = some f → f.id = i
  fits : ∀ {i : Nat} {f : Place}, fs[i]? = some f → Fits fs i f
  scope : ∀ s, scope = some s → ScopeFits fs s

/-! ## Adding places -/

/-- A place stays at its position when places are added at the end. -/
theorem getElem?_append_of_eq_some {α : Type} {l more : List α} {i : Nat} {a : α}
    (h : l[i]? = some a) : (l ++ more)[i]? = some a := by
  rw [List.getElem?_append_left (List.getElem?_eq_some_iff.1 h).1, h]

theorem Fits.append {fs : List Place} {i : Nat} {f : Place} (h : Fits fs i f)
    (more : List Place) : Fits (fs ++ more) i f := by
  cases h with
  | kernel id grid hgrid hkind => exact .kernel id grid (getElem?_append_of_eq_some hgrid) hkind
  | grid id k kernel hi hk hkind =>
      exact .grid id k kernel hi (getElem?_append_of_eq_some hk) hkind
  | inner id p kind outer hkind hp houter hpath =>
      refine .inner id p kind outer hkind (getElem?_append_of_eq_some hp) houter ?_
      rw [Place.parents, List.map_append]
      exact hpath.append _

namespace Arranged

variable {fs : List Place} {scope : Option Scope}

/-- Every place of a longer list is an earlier one or a new one. -/
private theorem append_cases {more : List Place} {i : Nat} {f : Place}
    (h : (fs ++ more)[i]? = some f) :
    fs[i]? = some f ∨ ∃ j, i = fs.length + j ∧ more[j]? = some f := by
  by_cases hi : i < fs.length
  · exact .inl (by rwa [List.getElem?_append_left hi] at h)
  · rw [List.getElem?_append_right (by omega)] at h
    exact .inr ⟨i - fs.length, by omega, h⟩

/-- Places that fit can be added, with a scope that fits afterwards. -/
theorem append (h : Arranged fs scope) {more : List Place} {scope' : Option Scope}
    (hid : ∀ {j : Nat} {f : Place}, more[j]? = some f → f.id = fs.length + j)
    (hfits : ∀ {j : Nat} {f : Place}, more[j]? = some f → Fits (fs ++ more) (fs.length + j) f)
    (hscope : ∀ s, scope' = some s → ScopeFits (fs ++ more) s) :
    Arranged (fs ++ more) scope' where
  id_eq hf := by
    obtain hold | ⟨j, rfl, hnew⟩ := append_cases hf
    · exact h.id_eq hold
    · exact hid hnew
  fits hf := by
    obtain hold | ⟨j, rfl, hnew⟩ := append_cases hf
    · exact (h.fits hold).append more
    · exact hfits hnew
  scope := hscope

/-! ## What operations do to places -/

/-- A new kernel with its grid loop fits, and the grid loop becomes the scope. -/
theorem openKernel (h : Arranged fs scope) :
    Arranged (fs ++ [⟨fs.length, none, .kernel⟩, ⟨fs.length + 1, some fs.length, .grid⟩])
      (some ⟨fs.length, fs.length + 1⟩) := by
  set more : List Place := [⟨fs.length, none, .kernel⟩, ⟨fs.length + 1, some fs.length, .grid⟩]
  have hkernel : (fs ++ more)[fs.length]? = some ⟨fs.length, none, .kernel⟩ := by simp [more]
  have hgrid : (fs ++ more)[fs.length + 1]? = some ⟨fs.length + 1, some fs.length, .grid⟩ := by
    simp [more]
  refine h.append ?_ ?_ ?_
  · intro j f hf
    match j with
    | 0 => cases hf; rfl
    | 1 => cases hf; rfl
  · intro j f hf
    match j with
    | 0 => cases hf; exact .kernel _ _ hgrid rfl
    | 1 => cases hf; exact .grid _ _ _ rfl hkernel rfl
  · rintro s ⟨⟩
    have hlink : (Place.parents (fs ++ more))[fs.length + 1]? = some (some fs.length) := by
      rw [Place.parents, List.getElem?_map, hgrid]
      rfl
    exact ⟨⟨_, hkernel, rfl⟩, ⟨_, hgrid, .inl rfl⟩, .up hlink .self,
      ⟨fs.length + 1, by simp [more], .self⟩⟩

variable {s : Scope}

/-- A new node in the current loop fits. The scope may stay or become a new loop. -/
private theorem appendInner (h : Arranged fs (some s)) {kind : NodeKind}
    (hkind : kind = .nested ∨ kind = .step) {loop : Nat}
    (hloop : loop = s.loop ∨ loop = fs.length ∧ kind = .nested) :
    Arranged (fs ++ [⟨fs.length, some s.loop, kind⟩]) (some ⟨s.kernel, loop⟩) := by
  set new : Place := ⟨fs.length, some s.loop, kind⟩
  obtain ⟨⟨kernel, hkernel, hisKernel⟩, ⟨outer, houter, hisLoop⟩, habove, honPath⟩ :=
    h.scope s rfl
  have hparents : Place.parents (fs ++ [new]) = Place.parents fs ++ [some s.loop] := by
    simp [Place.parents, new]
  have hnew : (fs ++ [new])[fs.length]? = some new := by simp
  have hlink : (Place.parents (fs ++ [new]))[fs.length]? = some (some s.loop) := by
    rw [Place.parents, List.getElem?_map, hnew]
    rfl
  have hlength : (fs ++ [new]).length = fs.length + 1 := by simp
  refine h.append ?_ ?_ ?_
  · intro j f hf
    match j with
    | 0 => cases hf; rfl
  · intro j f hf
    match j with
    | 0 =>
        cases hf
        refine .inner _ _ _ _ hkind (getElem?_append_of_eq_some houter) hisLoop ?_
        rw [hparents]
        exact honPath.append _
  · -- The new node is the latest, and the path from it leads over the current loop.
    rintro _ ⟨⟩
    have habove' : Above (Place.parents (fs ++ [new])) s.kernel s.loop := by
      rw [hparents]
      exact habove.append _
    obtain rfl | ⟨rfl, hnested⟩ := hloop
    · exact ⟨⟨_, getElem?_append_of_eq_some hkernel, hisKernel⟩,
        ⟨_, getElem?_append_of_eq_some houter, hisLoop⟩, habove',
        ⟨fs.length, hlength, .up hlink .self⟩⟩
    · exact ⟨⟨_, getElem?_append_of_eq_some hkernel, hisKernel⟩,
        ⟨_, hnew, .inr hnested⟩, .up hlink habove', ⟨fs.length, hlength, .self⟩⟩

/-- A new loop in the current loop fits and becomes the scope. -/
theorem openLoop (h : Arranged fs (some s)) :
    Arranged (fs ++ [⟨fs.length, some s.loop, .nested⟩]) (some ⟨s.kernel, fs.length⟩) :=
  h.appendInner (.inl rfl) (.inr ⟨rfl, rfl⟩)

/-- A new step in the current loop fits. -/
theorem recordStep (h : Arranged fs (some s)) :
    Arranged (fs ++ [⟨fs.length, some s.loop, .step⟩]) (some s) :=
  h.appendInner (.inr rfl) (.inl rfl)

/-- The parent of a nested current loop fits as scope: it is a loop, and lies further up on the
same path. -/
theorem closeLoop (h : Arranged fs (some s)) {loop : Place} {outer : Nat}
    (hloop : fs[s.loop]? = some loop) (hgrid : loop.kind ≠ .grid)
    (hparent : loop.parent = some outer) : Arranged fs (some ⟨s.kernel, outer⟩) := by
  obtain ⟨⟨kernel, hkernel, hisKernel⟩, ⟨loop', hloop', hisLoop⟩, habove, honPath⟩ :=
    h.scope s rfl
  obtain rfl : loop = loop' := Option.some.inj (hloop.symm.trans hloop')
  have hlink : (Place.parents fs)[s.loop]? = some (some outer) := by
    rw [Place.parents, List.getElem?_map, hloop]
    exact congrArg some hparent
  refine ⟨h.id_eq, h.fits, ?_⟩
  rintro _ ⟨⟩
  refine ⟨⟨_, hkernel, hisKernel⟩, ?_, ?_, ?_⟩
  · obtain ⟨p, outer', hp, houter⟩ :=
      (h.fits hloop).of_inner (.inl (hisLoop.resolve_left hgrid))
    obtain rfl := Option.some.inj (hparent.symm.trans hp)
    exact ⟨outer', houter⟩
  · -- The kernel is above the loop and not the loop itself, so it is above the loop's parent.
    obtain hself | ⟨q, hq, hrest⟩ := habove.eq_or_parent
    · rw [hself, hloop] at hkernel
      obtain rfl := Option.some.inj hkernel
      rw [hisKernel] at hisLoop
      obtain hisLoop | hisLoop := hisLoop <;> cases hisLoop
    · obtain rfl := Option.some.inj (Option.some.inj (hlink.symm.trans hq))
      exact hrest
  · obtain ⟨j, hj, hpath⟩ := honPath
    exact ⟨j, hj, (Above.up hlink .self).trans hpath⟩

/-- Without a scope the places still fit. -/
theorem closeKernel (h : Arranged fs scope) : Arranged fs none :=
  ⟨h.id_eq, h.fits, nofun⟩

end Arranged

/-! ## Histories -/

namespace Context

variable {c : Context}

theorem places_withKernel (name : String) (template : Coordinate) (extent : Option Value) :
    (c.withKernel name template extent).places =
      c.places ++ [⟨c.places.length, none, .kernel⟩,
        ⟨c.places.length + 1, some c.places.length, .grid⟩] := by
  simp [places, size, withKernel, nextKernel, nextGrid, Node.place, Node.kind]

theorem places_withLoop (kernel : NodeId) (outer : Node) (extent : Option Value) :
    (c.withLoop kernel outer extent).places =
      c.places ++ [⟨c.places.length, some outer.id, .nested⟩] := by
  simp [places, size, withLoop, nextLoop, Node.place, Node.kind]

theorem places_withStep (outer : Node) (origin : StepDefinition) (definitionId : StepId)
    (registry : Registry) (tag : Coordinate) (inputs : List Handle) :
    (c.withStep outer origin definitionId registry tag inputs).places =
      c.places ++ [⟨c.places.length, some outer.id, .step⟩] := by
  simp [places, size, withStep, nextStep, Node.place, Node.kind]

/-- The node at a position after one node was changed. -/
theorem node?_modifyNode (c : Context) (id : NodeId) (change : Node → Node) (i : Nat) :
    (c.modifyNode id change).node? i =
      if id = i then (c.node? i).map change else c.node? i := by
  simp only [node?, modifyNode, Array.getElem?_modify]

/-- A change of a node keeps what it keeps of every node. -/
theorem map_modifyNode {α : Type} (c : Context) (id : NodeId) {change : Node → Node} {f : Node → α}
    (h : ∀ n, f (change n) = f n) :
    (c.modifyNode id change).nodes.toList.map f = c.nodes.toList.map f := by
  apply List.ext_getElem?
  intro i
  have hnode (c : Context) : (c.nodes.toList.map f)[i]? = (c.node? i).map f := by
    simp [node?]
  rw [hnode, hnode, node?_modifyNode]
  split
  · rw [Option.map_map]
    exact congrFun (congrArg Option.map (funext h)) (c.node? i)
  · rfl

/-- A change that keeps places keeps the places of the context. -/
theorem places_modifyNode (c : Context) (id : NodeId) {change : Node → Node}
    (h : ∀ n, (change n).place = n.place) : (c.modifyNode id change).places = c.places :=
  c.map_modifyNode id h

end Context

theorem Node.place_addInput (handle : Handle) (n : Node) : (n.addInput handle).place = n.place := by
  obtain ⟨_, _, _, _, _ | _ | _⟩ := n <;> rfl

theorem Node.place_addOutput (handle : Handle) (n : Node) :
    (n.addOutput handle).place = n.place := by
  obtain ⟨_, _, _, _, _ | _ | _⟩ := n <;> rfl

/-- A context whose places fit together. -/
def Context.IsArranged (c : Context) : Prop :=
  Arranged c.places c.scope

/-- The number of the node at a position is the position. -/
theorem Context.IsArranged.id_eq {c : Context} (h : c.IsArranged) {i : Nat} {n : Node}
    (hn : c.node? i = some n) : n.id = i :=
  Arranged.id_eq h (Context.places_eq_some.2 ⟨n, hn, rfl⟩)

/-- While a kernel is open there is a current loop. -/
theorem Context.IsArranged.exists_currentLoop {c : Context} (h : c.IsArranged) {scope : Scope}
    (hscope : c.scope = some scope) : ∃ outer, c.currentLoop? = some outer := by
  obtain ⟨-, ⟨f, hf, -⟩, -, -⟩ := Arranged.scope h scope hscope
  obtain ⟨outer, houter, -⟩ := Context.places_eq_some.1 hf
  exact ⟨outer, Context.currentLoop?_eq_some.2 ⟨scope, hscope, houter⟩⟩

/-- Every operation that succeeds keeps the places there are, and keeps the context arranged. -/
theorem Operation.Step.arranged {c changed : Context} {operation : Operation}
    (h : c.IsArranged) (hstep : Step c operation changed) :
    changed.IsArranged ∧ c.places <+: changed.places := by
  unfold Context.IsArranged
  cases hstep with
  | openKernel name template extent hscope =>
      have hscope' : (c.withKernel name template extent).scope =
          some ⟨c.places.length, c.places.length + 1⟩ := by
        rw [Context.length_places]
        rfl
      rw [Context.places_withKernel, hscope']
      exact ⟨h.openKernel, List.prefix_append _ _⟩
  | openLoop extent scope outer hscope houter =>
      have hscope' : (c.withLoop scope.kernel outer extent).scope =
          some ⟨scope.kernel, c.places.length⟩ := by
        rw [Context.length_places]
        rfl
      rw [Context.places_withLoop, hscope', h.id_eq houter]
      exact ⟨(hscope ▸ h : Arranged c.places (some scope)).openLoop, List.prefix_append _ _⟩
  | closeLoop scope loop outer hscope hloop hgrid hparent =>
      have hne : loop.kind ≠ .grid := fun hkind => by
        rw [Node.isGridLoop_iff.2 hkind] at hgrid
        cases hgrid
      have hplace : c.places[scope.loop]? = some loop.place :=
        Context.places_eq_some.2 ⟨loop, hloop, rfl⟩
      exact ⟨(hscope ▸ h : Arranged c.places (some scope)).closeLoop hplace hne hparent,
        List.prefix_rfl⟩
  | recordStep origin tag requested inputs scope outer definitionId registry hscope houter hbind =>
      have hscope' : (c.withStep outer origin definitionId registry tag inputs).scope =
          some scope := hscope
      rw [Context.places_withStep, hscope', h.id_eq houter]
      exact ⟨(hscope ▸ h : Arranged c.places (some scope)).recordStep, List.prefix_append _ _⟩
  | closeKernel scope loop kernel hscope hloop hkernel hgrid =>
      exact ⟨h.closeKernel, List.prefix_rfl⟩
  | addKernelInput handle scope hscope =>
      rw [Context.places_modifyNode _ _ (Node.place_addInput handle)]
      exact ⟨h, List.prefix_rfl⟩
  | addKernelOutput handle scope hscope =>
      rw [Context.places_modifyNode _ _ (Node.place_addOutput handle)]
      exact ⟨h, List.prefix_rfl⟩
  | setVisualize ref visualize hopen =>
      have hplaces : (c.modifyNode ref.node.id fun n =>
          { n with visualize := visualize }).places = c.places :=
        c.places_modifyNode ref.node.id fun _ => rfl
      rw [hplaces]
      exact ⟨h, List.prefix_rfl⟩

/-- Every history keeps the places there are, and keeps the context arranged. -/
theorem Context.IsArranged.after {c : Context} (h : c.IsArranged) (history : History) :
    (c.after history).IsArranged ∧ c.places <+: (c.after history).places := by
  refine Context.after_induction (P := fun d => d.IsArranged ∧ c.places <+: d.places) history
    ⟨h, List.prefix_rfl⟩ ?_ ?_
  · intro d thread hd
    exact hd
  · intro d operation changed ⟨hd, hplaces⟩ hstep
    obtain ⟨hchanged, hmore⟩ := hstep.arranged hd
    exact ⟨hchanged, hplaces.trans hmore⟩

/-- A fresh context is arranged. -/
theorem Context.isArranged_fresh (id : ContextId) : (Context.fresh id).IsArranged :=
  ⟨nofun, nofun, nofun⟩

/-- Every context that a history leads to is arranged. -/
theorem Context.isArranged_after (id : ContextId) (history : History) :
    ((Context.fresh id).after history).IsArranged :=
  ((Context.isArranged_fresh id).after history).1

end TileTrace
