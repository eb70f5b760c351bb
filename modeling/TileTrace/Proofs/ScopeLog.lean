import TileTrace.Proofs.NodeChanges
import TileTrace.Proofs.TreeLines

/-!
# Logs of scopes

Opening and closing scopes and recording steps are events. `Operation.Announces`
says which events every operation comes with when it succeeds, in order. A log of
events is read with a stack of the scopes that are open: `ScopeEvent.Fits` says
what an event needs then, and `Context.IsLoggedBy` how a whole log belongs to a
context. `IsLoggedBy.step` says that operations keep it. So a log of a context
shows the whole record: this is `IsLoggedBy.recounts`.
-/

namespace TileTrace

/-- What a log tells of a node: its number and its text. -/
def Node.mark (n : Node) : NodeId × String :=
  (n.id, n.text)

theorem Node.mark_addInput (handle : Handle) (n : Node) : (n.addInput handle).mark = n.mark := by
  obtain ⟨_, _, _, _, _ | _ | _⟩ := n <;> rfl

theorem Node.mark_addOutput (handle : Handle) (n : Node) : (n.addOutput handle).mark = n.mark := by
  obtain ⟨_, _, _, _, _ | _ | _⟩ := n <;> rfl

/-- An event of a scope or a step. -/
inductive ScopeEvent where
  | opened (n : Node)
  | recorded (n : Node)
  | closed (n : Node)

namespace ScopeEvent

/-- The node of an event that adds it to the record. -/
def entered? : ScopeEvent → Option Node
  | opened n | recorded n => some n
  | closed _ => none

/-- Whether the event opens a scope. -/
def isOpened : ScopeEvent → Bool
  | opened _ => true
  | _ => false

/-- Whether the event closes a scope. -/
def isClosed : ScopeEvent → Bool
  | closed _ => true
  | _ => false

/-- The open scopes after an event, the latest first. -/
def move (stack : List Node) : ScopeEvent → List Node
  | opened n => n :: stack
  | recorded _ => stack
  | closed _ => stack.tail

/-- The scopes that are open after a log, the latest first. -/
def openAfter (log : List ScopeEvent) : List Node :=
  log.foldl move []

/-- The nodes that a log adds to the record, in order. -/
def entered (log : List ScopeEvent) : List Node :=
  log.filterMap entered?

@[simp] theorem entered_opened (n : Node) (log : List ScopeEvent) :
    entered (opened n :: log) = n :: entered log := rfl

@[simp] theorem entered_recorded (n : Node) (log : List ScopeEvent) :
    entered (recorded n :: log) = n :: entered log := rfl

@[simp] theorem entered_closed (n : Node) (log : List ScopeEvent) :
    entered (closed n :: log) = entered log := rfl

/-- The texts of the nodes that a log adds, behind two spaces for every open scope. -/
def outline (level : Nat) : List ScopeEvent → List String
  | [] => []
  | opened n :: log =>
      (String.ofList (List.replicate (2 * level) ' ') ++ n.text) :: outline (level + 1) log
  | recorded n :: log =>
      (String.ofList (List.replicate (2 * level) ' ') ++ n.text) :: outline level log
  | closed _ :: log => outline (level - 1) log

end ScopeEvent

open ScopeEvent

/-! ## The events of operations -/

namespace Operation

/-- Whether the operation comes with no event, even if it succeeds. -/
def isQuiet : Operation → Bool
  | addKernelInput _ | addKernelOutput _ | setVisualize _ _ | register _ => true
  | _ => false

/-- The events of operations that succeed. The context is already taken over by the thread. -/
inductive Announces (c : Context) : Operation → List ScopeEvent → Context → Prop where
  | openKernel (name : String) (template : Coordinate) (extent : Option Value) :
      c.scope = none →
      Announces c (.openKernel name template extent)
        [opened (c.nextKernel name template), opened (c.nextGrid template extent)]
        (c.withKernel name template extent)
  | openLoop (extent : Option Value) (scope : Scope) (outer : Node) :
      c.scope = some scope → c.node? scope.loop = some outer →
      Announces c (.openLoop extent) [opened (c.nextLoop outer extent)]
        (c.withLoop scope.kernel outer extent)
  | closeLoop (scope : Scope) (loop : Node) (outer : NodeId) :
      c.scope = some scope → c.node? scope.loop = some loop → loop.isGridLoop = false →
      loop.parent = some outer →
      Announces c .closeLoop [closed loop] { c with scope := some ⟨scope.kernel, outer⟩ }
  | recordStep (origin : StepDefinition) (tag : Coordinate) (requested : Option StepId)
      (inputs : List Handle) (scope : Scope) (outer : Node) (definitionId : StepId)
      (registry : Registry) :
      c.scope = some scope → c.node? scope.loop = some outer →
      c.registry.bind origin requested = .ok (definitionId, registry) →
      Announces c (.recordStep origin tag requested inputs)
        [recorded (c.nextStep outer origin definitionId tag inputs)]
        (c.withStep outer origin definitionId registry tag inputs)
  | closeKernel (scope : Scope) (loop kernel : Node) :
      c.scope = some scope → c.node? scope.loop = some loop →
      c.node? scope.kernel = some kernel → scope.loop = Context.gridOf scope.kernel →
      Announces c .closeKernel [closed loop, closed kernel] { c with scope := none }
  | quiet (operation : Operation) (id : NodeId) (change : Node → Node) :
      operation.isQuiet → Step c operation (c.modifyNode id change) →
      (∀ n, (change n).mark = n.mark) →
      Announces c operation [] (c.modifyNode id change)

/-- What an operation does when it succeeds does not depend on its events. -/
theorem Announces.toStep {c d : Context} {operation : Operation} {events : List ScopeEvent}
    (h : Announces c operation events d) : Step c operation d := by
  cases h with
  | openKernel name template extent hscope => exact .openKernel _ _ _ hscope
  | openLoop extent scope outer hscope houter => exact .openLoop _ _ _ hscope houter
  | closeLoop scope loop outer hscope hloop hgrid hparent =>
      exact .closeLoop _ _ _ hscope hloop hgrid hparent
  | recordStep origin tag requested inputs scope outer definitionId registry hscope houter hbind =>
      exact .recordStep _ _ _ _ _ _ _ _ hscope houter hbind
  | closeKernel scope loop kernel hscope hloop hkernel hgrid =>
      exact .closeKernel _ _ _ hscope hloop hkernel hgrid
  | quiet _ _ _ _ hstep => exact hstep

end Operation

namespace Context

/-- The events of an attempt, by its answer. An attempt that is refused has none. -/
def announced {α : Type} (attempt : Attempt α) (events : α → List ScopeEvent) : List ScopeEvent :=
  match attempt.1 with
  | .ok answer => events answer
  | .error _ => []

/-- The events that the attempt of a thread to carry out an operation comes with. -/
def events (c : Context) (thread : ThreadId) : Operation → List ScopeEvent
  | .openKernel name template extent =>
      announced (c.openKernel thread name template extent) fun (kernel, grid) =>
        [opened kernel, opened grid]
  | .openLoop extent => announced (c.openLoop thread extent) fun loop => [opened loop]
  | .closeLoop => announced (c.closeLoop thread) fun loop => [closed loop]
  | .recordStep origin tag requested inputs =>
      announced (c.recordStep thread origin tag requested inputs) fun step => [recorded step]
  | .closeKernel =>
      announced (c.closeKernel thread) fun (kernel, grid) => [closed grid, closed kernel]
  | .addKernelInput _ | .addKernelOutput _ | .setVisualize _ _ | .register _ => []

end Context

namespace Operation

open Context

variable {c changed : Context} {operation : Operation} {thread : ThreadId}

/-- An operation that succeeds comes with the events of the attempt. -/
theorem perform_announces (h : operation.perform thread c = (.ok (), changed)) :
    Announces (c.claimedBy thread) operation (c.events thread operation) changed := by
  have hstep := perform_ok h
  cases operation with
  | openKernel name template extent =>
      obtain ⟨_, hopen⟩ := finished_ok h
      obtain ⟨hscope, rfl, rfl⟩ := openKernel_ok hopen
      rw [events, hopen]
      exact .openKernel name template extent hscope
  | openLoop extent =>
      obtain ⟨_, hopen⟩ := finished_ok h
      obtain ⟨scope, outer, hscope, houter, rfl, rfl⟩ := openLoop_ok hopen
      rw [events, hopen]
      exact .openLoop extent scope outer hscope houter
  | closeLoop =>
      obtain ⟨loop, hclose⟩ := finished_ok h
      obtain ⟨scope, outer, hscope, hloop, hgrid, hparent, rfl⟩ := closeLoop_ok hclose
      rw [events, hclose]
      exact .closeLoop scope loop outer hscope hloop hgrid hparent
  | recordStep origin tag requested inputs =>
      obtain ⟨_, hrecord⟩ := finished_ok h
      obtain ⟨scope, outer, definitionId, registry, hscope, houter, hbind, rfl, rfl⟩ :=
        recordStep_ok hrecord
      rw [events, hrecord]
      exact .recordStep origin tag requested inputs scope outer definitionId registry hscope houter
        hbind
  | closeKernel =>
      obtain ⟨⟨kernel, loop⟩, hclose⟩ := finished_ok h
      obtain ⟨scope, hscope, hkernel, hloop, hgrid, rfl⟩ := closeKernel_ok hclose
      rw [events, hclose]
      exact .closeKernel scope loop kernel hscope hloop hkernel hgrid
  | addKernelInput handle =>
      obtain ⟨scope, -, rfl⟩ := addKernelInput_ok h
      exact .quiet _ _ _ rfl hstep (Node.mark_addInput handle)
  | addKernelOutput handle =>
      obtain ⟨scope, -, rfl⟩ := addKernelOutput_ok h
      exact .quiet _ _ _ rfl hstep (Node.mark_addOutput handle)
  | setVisualize node visualize =>
      obtain ⟨ref, -, -, rfl⟩ := setVisualize_ok h
      exact .quiet _ _ _ rfl hstep fun _ => rfl
  | register node =>
      obtain ⟨_, hregister⟩ := finished_ok h
      exact absurd hregister register_ne_ok

/-- An operation that is refused comes with no event. -/
theorem events_of_error {e : Error} (h : operation.perform thread c = (.error e, changed)) :
    c.events thread operation = [] := by
  cases operation with
  | openKernel | openLoop | closeLoop | recordStep | closeKernel =>
      rw [events, finished_error h]
      rfl
  | addKernelInput | addKernelOutput | setVisualize | register => rfl

end Operation

/-! ## Reading logs -/

namespace ScopeEvent

variable {c d : Context} {stack : List Node} {before log : List ScopeEvent} {event : ScopeEvent}
  {n : Node}

theorem openAfter_append (before log : List ScopeEvent) :
    openAfter (before ++ log) = log.foldl move (openAfter before) :=
  List.foldl_append

theorem entered_append (before log : List ScopeEvent) :
    entered (before ++ log) = entered before ++ entered log :=
  List.filterMap_append

/-- Open scopes were open before, or they were entered since. -/
theorem mem_entered_of_open (h : n ∈ log.foldl move stack) : n ∈ stack ∨ n ∈ entered log := by
  induction log generalizing stack with
  | nil => exact .inl h
  | cons event log ih =>
      have hlog := ih h
      cases event with
      | opened m =>
          rw [move, List.mem_cons, or_assoc] at hlog
          rw [entered_opened, List.mem_cons]
          exact or_left_comm.1 hlog
      | recorded m => exact hlog.imp_right fun h => List.mem_cons_of_mem _ h
      | closed m => exact hlog.imp_left List.mem_of_mem_tail

/-- What an event needs while the given scopes are open: a node is entered at the depth at which it
stands in the record, and only the latest scope is closed. -/
def Fits (c : Context) (stack : List Node) : ScopeEvent → Prop
  | opened n | recorded n => (c.node? n.id).map c.depthOf = some stack.length
  | closed n => stack.head?.map Node.mark = some n.mark

/-- The events of a log fit one after the other. -/
def Follows (c : Context) : List Node → List ScopeEvent → Prop
  | _, [] => True
  | stack, event :: log => event.Fits c stack ∧ Follows c (move stack event) log

theorem follows_append : Follows c stack (before ++ log) ↔
    Follows c stack before ∧ Follows c (before.foldl move stack) log := by
  induction before generalizing stack with
  | nil => exact (and_iff_right trivial).symm
  | cons event before ih => rw [List.cons_append, Follows, Follows, ih, and_assoc]; rfl

/-- Every event of a log fits when it comes. -/
theorem Follows.fits {after : List ScopeEvent} (h : Follows c [] (before ++ event :: after)) :
    event.Fits c (openAfter before) :=
  (follows_append.1 h).2.1

/-- Nodes that are added later leave the depth of a node as it is. -/
theorem Fits.of_isPrefix (h : c.IsArranged) (hd : d.IsArranged) (hplaces : c.places <+: d.places)
    (hfits : event.Fits c stack) : event.Fits d stack := by
  have hdepth {n : Node} (hn : (c.node? n.id).map c.depthOf = some stack.length) :
      (d.node? n.id).map d.depthOf = some stack.length := by
    obtain ⟨m, hm, hlength⟩ := Option.map_eq_some_iff.1 hn
    obtain ⟨m', hm', -⟩ := Context.exists_node?_of_isPrefix hplaces hm
    have hlineage := congrArg List.length (h.lineage_of_isPrefix hd hplaces hm hm')
    rw [Context.length_lineage_eq, Context.length_lineage_eq, Nat.add_right_cancel_iff] at hlineage
    rw [hm', Option.map_some, hlineage, hlength]
  cases event with
  | opened n => exact hdepth hfits
  | recorded n => exact hdepth hfits
  | closed n => exact hfits

theorem Follows.of_isPrefix (h : c.IsArranged) (hd : d.IsArranged)
    (hplaces : c.places <+: d.places) (hfollows : Follows c stack log) : Follows d stack log := by
  induction log generalizing stack with
  | nil => trivial
  | cons event log ih => exact ⟨hfollows.1.of_isPrefix h hd hplaces, ih hfollows.2⟩

/-- Scopes are opened as often as they are closed, apart from those that are open. -/
theorem Follows.countP_isOpened (h : Follows c stack log) :
    stack.length + log.countP isOpened = log.countP isClosed + (log.foldl move stack).length := by
  induction log generalizing stack with
  | nil => simp
  | cons event log ih =>
      have hlog := ih h.2
      cases event with
      | opened n =>
          simp only [List.countP_cons, isOpened, isClosed, List.foldl_cons, move,
            List.length_cons] at hlog ⊢
          simp only [if_pos, Bool.false_eq_true, if_false]
          omega
      | recorded n => simpa [List.countP_cons, isOpened, isClosed, move] using hlog
      | closed n =>
          cases stack with
          | nil => cases h.1
          | cons top stack =>
              simp only [List.countP_cons, isOpened, isClosed, List.foldl_cons, move,
                List.tail_cons] at hlog ⊢
              simp only [List.length_cons, if_pos, Bool.false_eq_true, if_false]
              omega

/-- A log indents every node by its depth in the record. -/
theorem Follows.outline_eq (h : Follows c stack log) :
    outline stack.length log = (entered log).map fun n =>
      Tree.indented (((c.node? n.id).map c.depthOf).getD 0) n.text := by
  induction log generalizing stack with
  | nil => rfl
  | cons event log ih =>
      have hlog := ih h.2
      cases event with
      | opened n =>
          have hdepth : (c.node? n.id).map c.depthOf = some stack.length := h.1
          rw [entered_opened, List.map_cons, hdepth, ← hlog, Option.getD_some, Tree.indented_eq]
          rfl
      | recorded n =>
          have hdepth : (c.node? n.id).map c.depthOf = some stack.length := h.1
          rw [entered_recorded, List.map_cons, hdepth, ← hlog, Option.getD_some, Tree.indented_eq]
          rfl
      | closed n =>
          rw [entered_closed, ← hlog, outline, move, List.length_tail]

end ScopeEvent

/-! ## The log of a context -/

namespace Context

variable {c d : Context} {log new : List ScopeEvent} {n m : Node} {scope : Scope} {loop : Node}

/-- What a log tells of the nodes, in the order of their numbers. -/
def marks (c : Context) : List (NodeId × String) :=
  c.nodes.toList.map Node.mark

/-- The numbers of the open scopes, the innermost first and the kernel last. -/
def openScopes (c : Context) : List NodeId :=
  match c.currentLoop? with
  | some loop => c.lineage loop
  | none => []

theorem node?_withStep (c : Context) (outer : Node) (origin : StepDefinition)
    (definitionId : StepId) (registry : Registry) (tag : Coordinate) (inputs : List Handle) :
    (c.withStep outer origin definitionId registry tag inputs).node? c.size =
      some (c.nextStep outer origin definitionId tag inputs) := by
  simp [node?, withStep, size]

theorem openScopes_idle (h : c.scope = none) : c.openScopes = [] := by
  rw [openScopes, currentLoop?, h]
  rfl

theorem openScopes_eq (hscope : c.scope = some scope) (hloop : c.node? scope.loop = some loop) :
    c.openScopes = c.lineage loop := by
  rw [openScopes, currentLoop?_eq_some.2 ⟨scope, hscope, hloop⟩]

namespace IsArranged

/-- Nodes that are added later leave the open scopes as they are. -/
theorem openScopes_of_isPrefix (h : c.IsArranged) (hd : d.IsArranged)
    (hplaces : c.places <+: d.places) (hscope : d.scope = c.scope) :
    d.openScopes = c.openScopes := by
  cases hc : c.scope with
  | none => rw [openScopes_idle hc, openScopes_idle (hscope.trans hc)]
  | some scope =>
      obtain ⟨loop, hcurrent⟩ := h.exists_currentLoop hc
      obtain ⟨_, hsame, hloop⟩ := currentLoop?_eq_some.1 hcurrent
      obtain rfl := Option.some.inj (hc.symm.trans hsame)
      obtain ⟨loop', hloop', -⟩ := exists_node?_of_isPrefix hplaces hloop
      rw [openScopes_eq hc hloop, openScopes_eq (hscope.trans hc) hloop',
        h.lineage_of_isPrefix hd hplaces hloop hloop']

/-- A node that has the same mark as a node of the record has the mark of the node with its
number. -/
theorem mark_eq (h : c.IsArranged) (hmark : n.mark ∈ c.marks) (hm : c.node? n.id = some m) :
    n.mark = m.mark := by
  obtain ⟨m', hm', hsame⟩ := List.mem_map.1 hmark
  have hid : m'.id = n.id := congrArg Prod.fst hsame
  rw [← hid, h.node?_of_mem hm'] at hm
  cases hm
  exact hsame.symm

end IsArranged

end Context

namespace Operation.Announces

open Context

variable {c d : Context} {operation : Operation} {new : List ScopeEvent} {stack : List Node}

/-- The nodes that an operation adds are those that its events enter, and the others keep their
marks. -/
theorem marks (h : Announces c operation new d) :
    d.marks = c.marks ++ (entered new).map Node.mark := by
  have hpushed {more : List Node} (hnodes : d.nodes.toList = c.nodes.toList ++ more) :
      d.marks = c.marks ++ more.map Node.mark := by
    rw [Context.marks, hnodes, List.map_append, Context.marks]
  cases h with
  | openKernel name template extent => exact hpushed (toList_withKernel ..)
  | openLoop extent scope outer => exact hpushed (toList_withLoop ..)
  | recordStep => exact hpushed (toList_withStep ..)
  | closeLoop => exact (List.append_nil _).symm
  | closeKernel => exact (List.append_nil _).symm
  | quiet _ id change _ _ hmark =>
      rw [Context.marks, Context.marks, c.map_modifyNode id hmark]
      exact (List.append_nil _).symm

/-- The events of an operation fit the open scopes, and lead to those that are open afterwards. -/
theorem follows (h : c.IsArranged) (hstep : Announces c operation new d)
    (hopen : stack.map Node.id = c.openScopes) (hmarks : ∀ n ∈ stack, n.mark ∈ c.marks) :
    Follows d stack new ∧ (new.foldl move stack).map Node.id = d.openScopes := by
  obtain ⟨hd, hplaces⟩ := hstep.toStep.arranged h
  have hlength : stack.length = c.openScopes.length := by rw [← hopen, List.length_map]
  -- The current loop has been on the stack since it was opened.
  have hinner {scope : Scope} {outer new : Node} {i : Nat} (hscope : c.scope = some scope)
      (houter : c.node? scope.loop = some outer) (hnew : d.node? i = some new)
      (hparent : new.parent = some outer.id) :
      d.depthOf new = stack.length ∧ d.lineage new = i :: c.openScopes := by
    rw [h.id_eq houter] at hparent
    obtain ⟨outer', houter'⟩ := hd.exists_outer hnew hparent
    have hlineage : d.lineage new = i :: c.openScopes := by
      rw [hd.lineage_child hnew hparent houter', h.lineage_of_isPrefix hd hplaces houter houter',
        openScopes_eq hscope houter]
    have hdepth := congrArg List.length hlineage
    rw [length_lineage_eq, List.length_cons, ← hlength, Nat.add_right_cancel_iff] at hdepth
    exact ⟨hdepth, hlineage⟩
  have hmark {n m : Node} {i : Nat} (hn : n ∈ stack) (hid : n.id = i) (hm : c.node? i = some m) :
      n.mark = m.mark :=
    h.mark_eq (hmarks n hn) (hid ▸ hm)
  cases hstep with
  | openKernel name template extent hscope =>
      have hkernel := c.node?_withKernel_kernel name template extent
      have hgrid := c.node?_withKernel_grid name template extent
      rw [openScopes_idle hscope, List.map_eq_nil_iff] at hopen
      subst hopen
      have hroot := hd.depthOf_root hkernel rfl
      refine ⟨⟨?_, ?_, trivial⟩, ?_⟩
      · exact Option.map_eq_some_iff.2 ⟨_, hkernel, hroot⟩
      · refine Option.map_eq_some_iff.2 ⟨_, hgrid, ?_⟩
        rw [hd.depthOf_child hgrid rfl hkernel, hroot]
        rfl
      · rw [openScopes_eq rfl hgrid, hd.lineage_grid hgrid rfl hkernel rfl]
        rfl
  | openLoop extent scope outer hscope houter =>
      have hloop := c.node?_withLoop scope.kernel outer extent
      obtain ⟨hdepth, hlineage⟩ := hinner hscope houter hloop rfl
      refine ⟨⟨Option.map_eq_some_iff.2 ⟨_, hloop, hdepth⟩, trivial⟩, ?_⟩
      rw [openScopes_eq rfl hloop, hlineage, ← hopen]
      rfl
  | recordStep origin tag requested inputs scope outer definitionId registry hscope houter hbind =>
      have hnew := c.node?_withStep outer origin definitionId registry tag inputs
      obtain ⟨hdepth, -⟩ := hinner hscope houter hnew rfl
      refine ⟨⟨Option.map_eq_some_iff.2 ⟨_, hnew, hdepth⟩, trivial⟩, ?_⟩
      rw [h.openScopes_of_isPrefix hd hplaces rfl, ← hopen]
      rfl
  | closeLoop scope loop outer hscope hloop hgrid hparent =>
      obtain ⟨outerLoop, houter⟩ := h.exists_outer hloop hparent
      rw [openScopes_eq hscope hloop, h.lineage_child hloop hparent houter] at hopen
      obtain ⟨top, rest, rfl, htop, hrest⟩ := List.map_eq_cons_iff.1 hopen
      refine ⟨⟨congrArg some (hmark List.mem_cons_self htop hloop), trivial⟩, ?_⟩
      rw [openScopes_eq rfl houter]
      exact hrest
  | closeKernel scope loop kernel hscope hloop hkernel hgrid =>
      obtain ⟨kernel', hkernel', hisKernel⟩ := h.exists_openKernel hscope
      obtain ⟨grid, hgridNode, -, hparent⟩ := h.exists_grid hkernel' hisKernel
      have hloop' : c.node? (scope.kernel + 1) = some loop := by rw [← hloop, hgrid, gridOf]
      obtain rfl := Option.some.inj (hloop'.symm.trans hgridNode)
      rw [openScopes_eq hscope hloop, h.lineage_grid hloop' hparent hkernel' hisKernel] at hopen
      obtain ⟨top, rest, rfl, htop, hrest⟩ := List.map_eq_cons_iff.1 hopen
      obtain ⟨bottom, below, rfl, hbottom, hbelow⟩ := List.map_eq_cons_iff.1 hrest
      have hkernelMark := hmark (List.mem_cons_of_mem _ List.mem_cons_self) hbottom hkernel
      refine ⟨⟨congrArg some (hmark List.mem_cons_self htop hloop'), congrArg some hkernelMark,
        trivial⟩, ?_⟩
      rw [openScopes_idle rfl]
      exact hbelow
  | quiet _ id change _ _ _ =>
      refine ⟨trivial, ?_⟩
      rw [h.openScopes_of_isPrefix hd hplaces rfl, ← hopen]
      rfl

end Operation.Announces

/-! ## Logs of whole runs -/

namespace Context

variable {c d : Context} {log new : List ScopeEvent} {operation : Operation}

/-- The log enters the nodes of the record in order, its events fit, and it leaves the scopes open
that are open in the context. -/
structure IsLoggedBy (c : Context) (log : List ScopeEvent) : Prop where
  marks : (entered log).map Node.mark = c.marks
  follows : Follows c [] log
  scopes : (openAfter log).map Node.id = c.openScopes

theorem isLoggedBy_fresh (id : ContextId) : (fresh id).IsLoggedBy [] :=
  ⟨rfl, trivial, rfl⟩

namespace IsLoggedBy

variable (hlog : c.IsLoggedBy log)
include hlog

/-- Another owner shows in no log. -/
theorem claimedBy (thread : ThreadId) : (c.claimedBy thread).IsLoggedBy log where
  marks := hlog.marks
  follows := by
    have hfits {stack : List Node} {log : List ScopeEvent} (h : Follows c stack log) :
        Follows (c.claimedBy thread) stack log := by
      induction log generalizing stack with
      | nil => trivial
      | cons event log ih => exact ⟨by cases event <;> exact h.1, ih h.2⟩
    exact hfits hlog.follows
  scopes := hlog.scopes

/-- An operation that succeeds adds its events to the log. -/
theorem step (h : c.IsArranged) (hstep : operation.Announces c new d) :
    d.IsLoggedBy (log ++ new) := by
  obtain ⟨hd, hplaces⟩ := hstep.toStep.arranged h
  obtain ⟨hfollows, hscopes⟩ := hstep.follows h hlog.scopes fun n hn => by
    rw [← hlog.marks]
    exact List.mem_map_of_mem ((mem_entered_of_open hn).resolve_left List.not_mem_nil)
  exact {
    marks := by rw [entered_append, List.map_append, hlog.marks, hstep.marks]
    follows := follows_append.2 ⟨hlog.follows.of_isPrefix h hd hplaces, hfollows⟩
    scopes := by rw [openAfter_append, hscopes] }

/-- An operation adds its events to the log, if there are any. -/
theorem perform (h : c.IsArranged) (operation : Operation) (thread : ThreadId) :
    (operation.perform thread c).2.IsArranged ∧
      (operation.perform thread c).2.IsLoggedBy (log ++ c.events thread operation) := by
  have hclaimed : (c.claimedBy thread).IsArranged := h
  cases hperform : operation.perform thread c with
  | mk result changed =>
      cases result with
      | ok answer =>
          have hstep := Operation.perform_announces hperform
          exact ⟨(hstep.toStep.arranged hclaimed).1, (hlog.claimedBy thread).step hclaimed hstep⟩
      | error e =>
          rw [Operation.events_of_error hperform, List.append_nil]
          obtain rfl | rfl := Operation.perform_error hperform
          · exact ⟨h, hlog⟩
          · exact ⟨hclaimed, hlog.claimedBy thread⟩

/-- The nodes of a record are entered in the order of their numbers, each once. -/
theorem getElem?_entered (i : Nat) :
    ((entered log)[i]?).map Node.mark = (c.node? i).map Node.mark := by
  rw [← List.getElem?_map, hlog.marks, Context.marks, List.getElem?_map, Array.getElem?_toList]
  rfl

theorem map_id_entered (h : c.IsArranged) : (entered log).map Node.id = List.range c.size := by
  have hids := congrArg (List.map Prod.fst) hlog.marks
  rw [Context.marks, List.map_map, List.map_map] at hids
  exact hids.trans h.map_id

/-- When a scope is closed, it is the latest one. -/
theorem closed_eq {before after : List ScopeEvent} {n : Node}
    (hsplit : log = before ++ .closed n :: after) :
    (openAfter before).head?.map Node.mark = some n.mark :=
  (hsplit ▸ hlog.follows).fits

/-- When a node is entered, as many scopes are open as the node has nodes above it. -/
theorem depth_eq {before after : List ScopeEvent} {event : ScopeEvent} {n : Node}
    (hsplit : log = before ++ event :: after) (hentered : event.entered? = some n) :
    ∃ m, c.node? n.id = some m ∧
      before.countP isOpened = before.countP isClosed + c.depthOf m := by
  subst hsplit
  have hfits : (c.node? n.id).map c.depthOf = some (openAfter before).length := by
    cases event with
    | opened m | recorded m =>
        cases hentered
        exact hlog.follows.fits
    | closed m => cases hentered
  obtain ⟨m, hm, hdepth⟩ := Option.map_eq_some_iff.1 hfits
  have hcount := (follows_append.1 hlog.follows).1.countP_isOpened
  rw [List.length_nil, Nat.zero_add] at hcount
  exact ⟨m, hm, by rw [hcount, hdepth]; rfl⟩

/-- The log shows the record: the texts of its nodes, indented by the number of open scopes, are the
lines of the context. -/
theorem outline_eq (h : c.IsArranged) :
    c.text = String.join ((outline 0 log).map (· ++ "\n")) := by
  have hlines (ns : List Node) :
      ns.map (fun n => Tree.indented (((c.node? n.id).map c.depthOf).getD 0) n.text ++ "\n") =
        (ns.map Node.mark).map fun mark =>
          Tree.indented (((c.node? mark.1).map c.depthOf).getD 0) mark.2 ++ "\n" := by
    rw [List.map_map]
    rfl
  have hdepth : ∀ n ∈ c.nodes.toList,
      Tree.indented (c.depthOf n) n.text ++ "\n" =
        Tree.indented (((c.node? n.id).map c.depthOf).getD 0) n.text ++ "\n" := by
    intro n hn
    rw [h.node?_of_mem hn]
    rfl
  have houtline : outline 0 log = _ := hlog.follows.outline_eq
  rw [h.text_eq, List.map_congr_left hdepth, hlines, ← Context.marks, ← hlog.marks, ← hlines,
    houtline, List.map_map]
  rfl

end IsLoggedBy

/-- What a log tells of a context. -/
structure Recounts (c : Context) (log : List ScopeEvent) : Prop where
  /-- The nodes are entered in the order of their numbers, with their texts. -/
  nodes : ∀ i : Nat, ((entered log)[i]?).map Node.mark = (c.node? i).map Node.mark
  /-- Every node is entered once. -/
  numbers : (entered log).map Node.id = List.range c.size
  /-- Only the latest scope that is open is closed. -/
  latest : ∀ (before after : List ScopeEvent) (n : Node), log = before ++ .closed n :: after →
    (openAfter before).head?.map Node.mark = some n.mark
  /-- A node is entered with as many scopes open as there are nodes above it. -/
  depth : ∀ (before after : List ScopeEvent) (event : ScopeEvent) (n : Node),
    log = before ++ event :: after → event.entered? = some n →
    ∃ m, c.node? n.id = some m ∧ before.countP isOpened = before.countP isClosed + c.depthOf m
  /-- The texts of the entered nodes, indented by the number of open scopes, are the lines of the
  context. -/
  text : c.text = String.join ((outline 0 log).map (· ++ "\n"))

/-- The log of a context shows the record. -/
theorem IsLoggedBy.recounts (hlog : c.IsLoggedBy log) (h : c.IsArranged) : c.Recounts log where
  nodes := hlog.getElem?_entered
  numbers := hlog.map_id_entered h
  latest _ _ _ hsplit := hlog.closed_eq hsplit
  depth _ _ _ _ hsplit hentered := hlog.depth_eq hsplit hentered
  text := hlog.outline_eq h

end Context

end TileTrace
