import TileTrace.Proofs.Freezing
import TileTrace.Proofs.ScopeLog

/-!
# The scope trace

With the scope trace enabled, the events of scopes and steps are printed, a line
each, among whatever else is printed. `Operation.act_emits` says which lines an
operation adds, and `Operation.Logs` what the events are of operations that
succeed or fail. `Logged` is about whole runs, and `Logged.scopeLines_faithful`,
the main theorem, says that the lines tell all about the context.
-/

namespace TileTrace

open ScopeEvent

/-! ## Lines of the scope trace -/

namespace ScopeEvent

/-- The word for an event in the scope trace. -/
def word : ScopeEvent → String
  | opened _ => "open"
  | recorded _ => "record"
  | closed _ => "close"

/-- The node of an event. -/
def node : ScopeEvent → Node
  | opened n | recorded n | closed n => n

/-- The line of an event in the scope trace. -/
def line (event : ScopeEvent) : String :=
  "[scope] " ++ event.word ++ " " ++ event.node.text ++ "\n"

end ScopeEvent

namespace World

variable {w w' w'' : World} {number : Nat} {before after lines : List String}

/-- Whether a text that was printed at once is a line of the scope trace. -/
def isScopeLine (text : String) : Bool :=
  "[scope] ".toList.isPrefixOf text.toList

/-- The lines of the scope trace that were printed to the buffer with the given number. -/
def scopeLines (number : Nat) (w : World) : List String :=
  (w.printed.toList.filter fun (buffer, text) => buffer = number && isScopeLine text).map Prod.snd

/-- The scope trace is enabled and goes to the buffer with the given number. -/
structure Watched (number : Nat) (w : World) : Prop where
  enabled : w.dump.has .scopeTrace = true
  stream : w.thread.stream = .buffer number

/-- From the first world to the second the scope trace gains the given lines. -/
structure Gains (number : Nat) (lines : List String) (w w' : World) : Prop where
  dump : w'.dump = w.dump
  thread : w'.thread = w.thread
  scopeLines : w'.scopeLines number = w.scopeLines number ++ lines

namespace Gains

theorem refl (w : World) : Gains number [] w w :=
  ⟨rfl, rfl, (List.append_nil _).symm⟩

theorem trans (h : Gains number before w w') (h' : Gains number after w' w'') :
    Gains number (before ++ after) w w'' :=
  ⟨h'.dump.trans h.dump, h'.thread.trans h.thread,
    by rw [h'.scopeLines, h.scopeLines, List.append_assoc]⟩

/-- The scope trace stays enabled. -/
theorem watched (h : Gains number lines w w') (hw : w.Watched number) : w'.Watched number :=
  ⟨h.dump ▸ hw.enabled, h.thread ▸ hw.stream⟩

end Gains

/-- A line of the scope trace that is printed is added to the trace. -/
theorem Watched.gains_print {text : String} (hw : w.Watched number) (htext : isScopeLine text) :
    Gains number [text] w (w.print text) := by
  have hprint : w.print text = { w with printed := w.printed.push (number, text) } := by
    rw [World.print, hw.stream]
  rw [hprint]
  exact ⟨rfl, rfl, by simp [World.scopeLines, List.filter_append, htext]⟩

/-- Other texts that are printed stay outside the scope trace. -/
theorem gains_print_of_not {text : String} (w : World) (htext : isScopeLine text = false) :
    Gains number [] w (w.print text) := by
  unfold World.print
  split
  · exact .refl w
  · exact ⟨rfl, rfl, by simp [World.scopeLines, List.filter_append, htext]⟩

theorem gains_put (w : World) (id : ContextId) (c : Context) : Gains number [] w (w.put id c) :=
  ⟨rfl, rfl, (List.append_nil _).symm⟩

theorem isScopeLine_line (event : ScopeEvent) : isScopeLine event.line := by
  rw [isScopeLine, List.isPrefixOf_iff_prefix, line]
  simp only [String.toList_append, List.append_assoc]
  exact List.prefix_append _ _

/-- A text is no line of the scope trace if it starts with another character. -/
theorem isScopeLine_of_head {text : String} {first : Char} (htext : text.toList.head? = some first)
    (hne : first ≠ '[') : isScopeLine text = false := by
  obtain ⟨rest, hrest⟩ := List.head?_eq_some_iff.1 htext
  have hscope : "[scope] ".toList = '[' :: "scope] ".toList := rfl
  rw [isScopeLine, hrest, hscope, List.isPrefixOf_cons_cons]
  simp [hne.symm]

end World

/-- A tree is printed outside the scope trace. -/
theorem Tree.isScopeLine_lines (tree : Tree) :
    World.isScopeLine (String.join (tree.lines.map (· ++ "\n"))) = false := by
  obtain ⟨root, children⟩ := tree
  obtain ⟨first, hfirst, hupper⟩ := root.exists_head
  have hne : first ≠ '[' := fun h => absurd (h ▸ hupper) (by decide)
  have hlines : (String.join ((node root children).lines.map (· ++ "\n"))).toList.head? =
      some first := by
    simp [lines, linesAt, indented, String.toList_join, hfirst]
  exact World.isScopeLine_of_head hlines hne

/-- A diagram is printed outside the scope trace. -/
theorem Diagram.isScopeLine_dot (d : Diagram) : World.isScopeLine d.dot = false := by
  have hheader : dotHeader.toList.head? = some 'd' := by decide +kernel
  have hdot : d.dot.toList.head? = some 'd' := by
    simp only [dot, String.toList_append, List.head?_append, hheader, Option.some_or]
  exact World.isScopeLine_of_head hdot (by decide)

/-! ## Lines of operations -/

namespace Trace

open World

variable {α β : Type} {w w' : World} {number : Nat} {id : ContextId} {c : Context}
  {before after lines : List String}

/-- The computation adds the given lines to the scope trace. -/
def Emits (number : Nat) (lines : List String) (x : Trace α) (w : World) : Prop :=
  w.Gains number lines (x.runOn w).2

theorem runOn_logScope (hw : w.Watched number) (event : ScopeEvent) :
    (logScope event.word event.node).runOn w = (.ok (), w.print event.line) := by
  rw [logScope, runOn_bind, runOn_get]
  dsimp only
  rw [if_pos hw.enabled]
  rfl

namespace Emits

theorem watched {x : Trace α} {result : Except Error α} (h : Emits number lines x w)
    (hrun : x.runOn w = (result, w')) (hw : w.Watched number) : w'.Watched number := by
  rw [Emits, hrun] at h
  exact h.watched hw

/-- A computation whose answer is dropped emits the same lines. -/
theorem finished {x : Trace α} (h : Emits number lines x w) :
    Emits number lines (do let _ ← x; return ()) w := by
  rw [Emits, runOn_finished_snd]
  exact h

theorem pure (a : α) : Emits number [] (pure a : Trace α) w :=
  Gains.refl w

/-- The rest of a computation emits its lines only if the first part returns. -/
theorem bind {x : Trace α} {f : α → Trace β} (hx : Emits number before x w)
    (hf : ∀ a w', x.runOn w = (.ok a, w') → Emits number after (f a) w')
    (hfails : ∀ e w', x.runOn w = (.error e, w') → after = []) :
    Emits number (before ++ after) (x >>= f) w := by
  rw [Emits] at hx ⊢
  rw [runOn_bind]
  cases hrun : x.runOn w with
  | mk result w₁ =>
      rw [hrun] at hx
      cases result with
      | ok a => exact hx.trans (hf a w₁ hrun)
      | error e =>
          rw [hfails e w₁ hrun, List.append_nil]
          exact hx

/-- A computation that is silent in both parts. -/
theorem silent {x : Trace α} {f : α → Trace β} (hx : Emits number [] x w)
    (hf : ∀ a w', x.runOn w = (.ok a, w') → Emits number [] (f a) w') :
    Emits number [] (x >>= f) w :=
  hx.bind hf fun _ _ _ => rfl

theorem get : Emits number [] (get : Trace World) w :=
  Gains.refl w

/-- Logging an event emits its line. -/
theorem logScope (hw : w.Watched number) (event : ScopeEvent) :
    Emits number [event.line] (Trace.logScope event.word event.node) w := by
  rw [Emits, runOn_logScope hw]
  exact hw.gains_print (isScopeLine_line event)

/-- Logging an event emits its line, and then what follows emits its lines. -/
theorem logScope_bind (hw : w.Watched number) (event : ScopeEvent) {f : Unit → Trace β}
    (hf : ∀ w', w.Alike w' → w'.Watched number → Emits number lines (f ()) w') :
    Emits number (event.line :: lines) (Trace.logScope event.word event.node >>= f) w := by
  have hlog := logScope hw event
  refine hlog.bind (fun a w' hrun => ?_) fun e w' hrun => ?_
  · exact hf w' (logScope_alike hrun) (hlog.watched hrun hw)
  · cases (runOn_logScope hw event).symm.trans hrun

/-- Printing a text that is no line of the scope trace. -/
theorem print {text : String} (htext : isScopeLine text = false) :
    Emits number [] (Trace.print text) w :=
  gains_print_of_not w htext

theorem writeDiagram (tree : Tree) (path : String) :
    Emits number [] (Trace.writeDiagram tree path) w := by
  refine get.silent fun v w' _ => ?_
  split
  · exact ⟨rfl, rfl, (List.append_nil _).symm⟩
  · exact Gains.refl w'

/-- Printing a closed kernel adds nothing to the scope trace. -/
theorem dumpClosed (kernel : String) (tree : Tree) :
    Emits number [] (Trace.dumpClosed kernel tree) w := by
  refine get.silent fun v w' _ => ?_
  extract_lets diagram
  have hdiagram (v : World) : Emits number [] (diagram ()) v := by
    refine get.silent fun v' w' _ => ?_
    split
    · exact .pure ()
    · exact .print (Diagram.isScopeLine_dot _)
    · exact .writeDiagram _ _
  split
  · exact (Emits.print tree.isScopeLine_lines).silent fun _ w'' _ => hdiagram w''
  · exact hdiagram _

/-- An operation on a context of the world emits nothing by itself. -/
theorem onContext (h : w.context? id = some c)
    (operation : Context → ThreadId → Context.Attempt α) :
    Emits number [] (onContext id operation) w := by
  rw [Emits, runOn_onContext h operation]
  exact gains_put w id _

/-- What follows an operation on a context of the world emits the lines of its events, if the
operation succeeds. -/
theorem onContext_bind (hw : w.Watched number) (h : w.context? id = some c)
    (operation : Context → ThreadId → Context.Attempt α) {f : α → Trace β}
    {events : α → List ScopeEvent}
    (hf : ∀ a w', w'.context? id = some (operation c w.thread.id).2 → w'.Watched number →
      Emits number ((events a).map line) (f a) w') :
    Emits number ((Context.announced (operation c w.thread.id) events).map line)
      (Trace.onContext id operation >>= f) w := by
  have hrun := runOn_onContext h operation
  have hput : Emits number [] (Trace.onContext id operation) w := .onContext h operation
  refine hput.bind (fun a w' ha => ?_) fun e w' he => ?_
  · obtain ⟨hanswer, rfl⟩ := Prod.mk.inj (hrun.symm.trans ha)
    rw [Context.announced, hanswer]
    exact hf a _ (context?_put h _) (hput.watched ha hw)
  · rw [Context.announced, (Prod.mk.inj (hrun.symm.trans he)).1]
    rfl

end Emits

end Trace

namespace Operation

open Context Trace World

variable {w : World} {number : Nat} {id : ContextId} {c : Context}

/-- An operation on a context of the world adds the lines of its events to the scope trace. -/
theorem act_emits (hw : w.Watched number) (h : w.context? id = some c) (operation : Operation) :
    Emits number ((c.events w.thread.id operation).map line) (operation.act id) w := by
  cases operation with
  | openKernel name template extent =>
      refine (Emits.onContext_bind hw h
        (fun c thread => c.openKernel thread name template extent)
        fun opened w' _ hw' => ?_).finished
      refine .logScope_bind hw' (.opened opened.1) fun w' _ hw' => ?_
      exact .logScope_bind hw' (.opened opened.2) fun w' _ hw' => .pure _
  | openLoop extent =>
      refine (Emits.onContext_bind hw h (fun c thread => c.openLoop thread extent)
        fun loop w' _ hw' => ?_).finished
      exact .logScope_bind hw' (.opened loop) fun w' _ hw' => .pure _
  | closeLoop =>
      refine (Emits.onContext_bind hw h (fun c thread => c.closeLoop thread)
        fun loop w' _ hw' => ?_).finished
      exact .logScope hw' (.closed loop)
  | recordStep origin tag requested inputs =>
      refine (Emits.onContext_bind hw h
        (fun c thread => c.recordStep thread origin tag requested inputs)
        fun step w' _ hw' => ?_).finished
      exact .logScope_bind hw' (.recorded step) fun w' _ hw' => .pure _
  | closeKernel =>
      refine (Emits.onContext_bind hw h (fun c thread => c.closeKernel thread)
        fun closed w₁ hcontext hw₁ => ?_).finished
      refine .logScope_bind hw₁ (.closed closed.2) fun w₂ h₂ hw₂ => ?_
      refine .logScope_bind hw₂ (.closed closed.1) fun w₃ h₃ hw₃ => ?_
      have hclosed : w₃.context? id = _ := (h₂.trans h₃).context? id ▸ hcontext
      rw [Emits, runOn_bind, runOn_context hclosed]
      dsimp only
      split
      · exact (Emits.dumpClosed _ _).silent fun _ w' _ => .pure _
      · exact Emits.pure _
  | addKernelInput handle => exact .onContext h fun c thread => c.addKernelInput thread handle
  | addKernelOutput handle => exact .onContext h fun c thread => c.addKernelOutput thread handle
  | setVisualize node visualize =>
      exact .onContext h fun c thread => c.setVisualize thread node visualize
  | register node =>
      exact (Emits.onContext h fun c thread => c.register thread node).finished

/-- What events an operation comes with, by its result. An operation that fails has none, unless it
has closed a kernel and only the diagram is not written. -/
inductive Logs : Operation → Except Error Unit → List ScopeEvent → Prop where
  | refused (operation : Operation) (e : Error) :
      (∀ path, e ≠ .diagramFile path) → Logs operation (.error e) []
  | openKernel (name : String) (template : Coordinate) (extent : Option Value)
      (kernel grid : Node) :
      kernel.isKernel → grid.isGridLoop → grid.parent = some kernel.id →
      Logs (.openKernel name template extent) (.ok ()) [.opened kernel, .opened grid]
  | openLoop (extent : Option Value) (loop : Node) :
      loop.isLoop → Logs (.openLoop extent) (.ok ()) [.opened loop]
  | closeLoop (loop : Node) : Logs .closeLoop (.ok ()) [.closed loop]
  | recordStep (origin : StepDefinition) (tag : Coordinate) (requested : Option StepId)
      (inputs : List Handle) (step : Node) :
      step.isStepOf origin →
      Logs (.recordStep origin tag requested inputs) (.ok ()) [.recorded step]
  /-- The grid loop is closed before the kernel. -/
  | closeKernel (result : Except Error Unit) (kernel grid : Node) :
      kernel.isKernel → grid.isGridLoop → grid.parent = some kernel.id →
      (result = .ok () ∨ ∃ path, result = .error (.diagramFile path)) →
      Logs .closeKernel result [.closed grid, .closed kernel]
  | quiet (operation : Operation) : operation.isQuiet → Logs operation (.ok ()) []

/-- The events of an operation that succeeds are those of its result. -/
theorem Announces.logs {d : Context} {operation : Operation} {events : List ScopeEvent}
    {result : Except Error Unit} (hc : c.IsArranged) (h : Announces c operation events d)
    (hresult : result = .ok () ∨
      operation = .closeKernel ∧ ∃ path, result = .error (.diagramFile path)) :
    operation.Logs result events := by
  have hok (hne : operation ≠ .closeKernel) : result = .ok () :=
    hresult.resolve_right fun hclose => hne hclose.1
  cases h with
  | openKernel name template extent hscope =>
      rw [hok nofun]
      exact .openKernel name template extent _ _ rfl rfl rfl
  | openLoop extent scope outer hscope houter =>
      rw [hok nofun]
      exact .openLoop extent _ rfl
  | closeLoop scope loop outer hscope hloop hgrid hparent =>
      rw [hok nofun]
      exact .closeLoop loop
  | recordStep origin tag requested inputs scope outer definitionId registry hscope houter hbind =>
      rw [hok nofun]
      exact .recordStep origin tag requested inputs _ (decide_eq_true rfl)
  | closeKernel scope loop kernel hscope hloop hkernel hgrid =>
      obtain ⟨kernel', hkernel', hisKernel⟩ := hc.exists_openKernel hscope
      obtain rfl := Option.some.inj (hkernel.symm.trans hkernel')
      obtain ⟨grid, hgridNode, hisGrid, hparent⟩ := hc.exists_grid hkernel hisKernel
      rw [hgrid] at hloop
      obtain rfl := Option.some.inj (hloop.symm.trans hgridNode)
      rw [← hc.id_eq hkernel] at hparent
      exact .closeKernel result kernel loop hisKernel hisGrid hparent (hresult.imp_right And.right)
  | quiet _ id change hquiet _ _ =>
      rw [hok (by rintro rfl; cases hquiet)]
      exact .quiet operation hquiet

/-- An operation on a context of the world has the events that belong to its result. -/
theorem act_logs (hc : c.IsArranged) (h : w.context? id = some c) (operation : Operation) :
    operation.Logs ((operation.act id).runOn w).1 (c.events w.thread.id operation) := by
  have hclaimed : (c.claimedBy w.thread.id).IsArranged := hc
  cases act_attempts h operation with
  | refused e changed hattempt hrun =>
      rw [hrun, events_of_error hattempt]
      exact .refused operation e (perform_ne_diagramFile hc hattempt)
  | returns b changed a w' hattempt hrun halike =>
      rw [hrun]
      exact (perform_announces hattempt).logs hclaimed (.inl rfl)
  | fails b changed e w' hattempt hrun halike he =>
      obtain ⟨hclose, path, rfl⟩ := he
      rw [hrun]
      exact (perform_announces hattempt).logs hclaimed (.inr ⟨hclose, path, rfl⟩)

end Operation

/-! ## Runs -/

/-- The worlds and events that operations on a new context lead to, of whichever thread, while the
scope trace is enabled and goes to the given buffer. What else happens leaves the context and the
scope trace as they are. -/
inductive Logged (id : ContextId) (number : Nat) (start : List String) :
    World → List ScopeEvent → Prop where
  | fresh (w : World) :
      w.context? id = some (Context.fresh id) → w.Watched number → w.scopeLines number = start →
      Logged id number start w []
  | operation (w : World) (log : List ScopeEvent) (c : Context) (operation : Operation) :
      Logged id number start w log → w.context? id = some c →
      Logged id number start ((operation.act id).runOn w).2
        (log ++ c.events w.thread.id operation)
  | elsewhere (w w' : World) (log : List ScopeEvent) :
      Logged id number start w log → w'.context? id = w.context? id → w'.Watched number →
      w'.scopeLines number = w.scopeLines number → Logged id number start w' log

namespace Logged

open Context World

variable {id : ContextId} {number : Nat} {start : List String} {w : World} {log : List ScopeEvent}

/-- Every operation adds its events to the log of the context, and their lines to the trace. -/
theorem isLoggedBy (h : Logged id number start w log) :
    w.Watched number ∧ w.scopeLines number = start ++ log.map line ∧
      ∃ c, w.context? id = some c ∧ c.IsArranged ∧ c.IsLoggedBy log := by
  induction h with
  | fresh w hfresh hwatched hstart =>
      exact ⟨hwatched, by rw [hstart]; exact (List.append_nil _).symm,
        _, hfresh, isArranged_fresh id, isLoggedBy_fresh id⟩
  | operation w log c operation _ hc ih =>
      obtain ⟨hwatched, hlines, c', hc', harranged, hlog⟩ := ih
      obtain rfl := Option.some.inj (hc.symm.trans hc')
      have hgains : Gains number _ w _ := operation.act_emits hwatched hc
      refine ⟨hgains.watched hwatched, ?_, _, (operation.act_context? hc).1,
        hlog.perform harranged operation w.thread.id⟩
      rw [hgains.scopeLines, hlines, List.map_append, List.append_assoc]
  | elsewhere w w' log _ hcontext hwatched hsame ih =>
      obtain ⟨-, hlines, hc⟩ := ih
      rw [hcontext, hsame]
      exact ⟨hwatched, hlines, hc⟩

/-- The scope trace is a faithful log of the record. Its lines are those of the events, the events
tell all about the record, and the next operation adds the lines of its events, which belong to its
result. -/
theorem scopeLines_faithful (h : Logged id number start w log) :
    w.scopeLines number = start ++ log.map line ∧
    ∃ c, w.context? id = some c ∧ c.Recounts log ∧
      ∀ operation : Operation,
        ((operation.act id).runOn w).2.scopeLines number =
          w.scopeLines number ++ (c.events w.thread.id operation).map line ∧
        operation.Logs ((operation.act id).runOn w).1 (c.events w.thread.id operation) := by
  obtain ⟨hwatched, hlines, c, hc, harranged, hlog⟩ := h.isLoggedBy
  refine ⟨hlines, c, hc, hlog.recounts harranged, fun operation => ?_⟩
  exact ⟨(operation.act_emits hwatched hc).scopeLines, operation.act_logs harranged hc⟩

/-- A run can go on with any operations. -/
theorem exists_log (h : Logged id number start w log) (operations : List Operation) :
    ∃ log', Logged id number start
      (operations.foldl (fun w operation => ((operation.act id).runOn w).2) w) log' := by
  induction operations generalizing w log with
  | nil => exact ⟨log, h⟩
  | cons operation operations ih =>
      obtain ⟨-, -, c, hc, -⟩ := h.isLoggedBy
      exact ih (h.operation w log c operation hc)

/-- A new context with the scope trace enabled, and diagrams asked for in a missing directory. -/
def watchedWorld : World where
  contexts := #[some (Context.fresh 0)]
  thread := { stream := .buffer 0 }
  dump := (Options.none.set .scopeTrace []).set .kernelDiagram ["missing"]
  disk := { folder := ["out"], working := ["out"] }

/-- A kernel with a loop, which somebody tries to close too early. -/
def closedEarly : List Operation :=
  [.openKernel "copy" .unbound none, .openLoop none, .closeKernel, .closeLoop, .closeKernel]

/-- The kernel that is closed too early leaves no line, and the one whose diagram is not written
leaves two. -/
theorem scopeLines_faithful_missing_directory :
    ∃ w log, w = closedEarly.foldl (fun w operation => ((operation.act 0).runOn w).2) watchedWorld ∧
      Logged 0 0 [] w log ∧
      log.map line =
        ["[scope] open Kernel copy [_] id=0\n", "[scope] open GridLoop tile0 [tile0] id=1\n",
          "[scope] open Loop coord0 [tile0] id=2\n", "[scope] close Loop coord0 [tile0] id=2\n",
          "[scope] close GridLoop tile0 [tile0] id=1\n", "[scope] close Kernel copy [_] id=0\n"] ∧
      ∃ c, w.context? 0 = some c ∧ c.Recounts log := by
  have hfresh : Logged 0 0 [] watchedWorld [] := .fresh _ rfl ⟨rfl, rfl⟩ rfl
  obtain ⟨log, hlog⟩ := hfresh.exists_log closedEarly
  obtain ⟨hlines, c, hc, hrecounts, -⟩ := hlog.scopeLines_faithful
  refine ⟨_, log, rfl, hlog, hlines.symm.trans ?_, c, hc, hrecounts⟩
  decide +kernel

end Logged

end TileTrace
