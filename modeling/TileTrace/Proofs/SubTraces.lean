import TileTrace.Proofs.SparedContexts

/-!
# Sub-traces

A step may run a trace of its own and record it into another context. The context
around it does not notice: `Bodies.subTrace_isolated` says that it is left as it
is, and that recording goes on as if there had been no sub-trace. `World.SameFor`
says that two worlds differ in other contexts, print-outs, and files only, and
`Trace.Steady` that a computation does the same in both.
-/

namespace TileTrace

namespace World

/-- The worlds differ in other contexts, in print-outs, and in files only. -/
structure SameFor (id : ContextId) (w v : World) : Prop where
  setting : v.setting = w.setting
  context : v.context? id = w.context? id

/-- From the first world to the second, the texts are printed and the files are written. -/
structure Outputs (texts : List (Nat × String)) (files : List (String × String))
    (w w' : World) : Prop where
  printed : w'.printed.toList = w.printed.toList ++ texts
  files : w'.disk.files = files.foldl Disk.keep w.disk.files

namespace Outputs

variable {w w' w'' : World} {texts texts' : List (Nat × String)}
  {files files' : List (String × String)}

theorem refl (w : World) : Outputs [] [] w w :=
  ⟨(List.append_nil _).symm, rfl⟩

theorem trans (h : Outputs texts files w w') (h' : Outputs texts' files' w' w'') :
    Outputs (texts ++ texts') (files ++ files') w w'' :=
  ⟨by rw [h'.printed, h.printed, List.append_assoc],
    by rw [h'.files, h.files, List.foldl_append]⟩

theorem of_appends (h : w.Appends texts w') : Outputs texts [] w w' :=
  ⟨h.printed, congrArg Disk.files h.disk⟩

end Outputs

/-- Two runs from two worlds: they end with the same result in worlds that are the same for the
context again, and have printed and written the same. -/
structure Together {α : Type} (id : ContextId) (w v : World)
    (run run' : Except Error α × World) : Prop where
  result : run'.1 = run.1
  same : run.2.SameFor id run'.2
  outputs : ∃ texts files, w.Outputs texts files run.2 ∧ v.Outputs texts files run'.2

theorem SameFor.copies_eq {id : ContextId} {w v : World} (h : w.SameFor id v) (text : String) :
    v.copies text = w.copies text := by
  rw [copies, thread_eq_of_setting h.setting, copies]

end World

namespace Trace

open World

variable {α β : Type} {id : ContextId} {w v : World}

/-- A computation keeps the setting of the world. While the context is the innermost active one, the
computation does the same in all worlds that are the same for the context. -/
def Steady (id : ContextId) (α : Type) (x : Trace α) (w : World) : Prop :=
  (x.runOn w).2.setting = w.setting ∧
    (w.thread.current = some id → ∀ v, w.SameFor id v → Together id w v (x.runOn w) (x.runOn v))

namespace Steady

/-- A computation that only finds something out. -/
theorem of_known {x : Trace α} (answer : World → Except Error α)
    (hrun : ∀ w, x.runOn w = (answer w, w)) (hsame : ∀ v, w.SameFor id v → answer v = answer w) :
    Steady id α x w := by
  rw [Steady, hrun]
  refine ⟨rfl, fun _ v h => ?_⟩
  rw [hrun]
  exact ⟨hsame v h, h, [], [], .refl w, .refl v⟩

/-- Both worlds gain the same texts. -/
theorem together_of_appends {w' v' : World} {texts : List (Nat × String)} {a : α}
    (h : w.SameFor id v) (hw : w.Appends texts w') (hv : v.Appends texts v') :
    Together id w v (.ok a, w') (.ok a, v') where
  result := rfl
  same := {
    setting := by rw [hv.setting, hw.setting, h.setting]
    context := by rw [hv.context?, hw.context?, h.context] }
  outputs := ⟨texts, [], .of_appends hw, .of_appends hv⟩

theorem together_bind {x : Trace α} {f : α → Trace β}
    (hx : Together id w v (x.runOn w) (x.runOn v))
    (hf : ∀ a w' v', x.runOn w = (.ok a, w') → w'.SameFor id v' →
      Together id w' v' ((f a).runOn w') ((f a).runOn v')) :
    Together id w v ((x >>= f).runOn w) ((x >>= f).runOn v) := by
  obtain ⟨hresult, hsame, texts, files, hw, hv⟩ := hx
  rw [runOn_bind, runOn_bind]
  cases hrun : x.runOn w with
  | mk result w' =>
      cases hrun' : x.runOn v with
      | mk result' v' =>
          rw [hrun, hrun'] at hresult hsame
          rw [hrun] at hw
          rw [hrun'] at hv
          obtain rfl := hresult
          cases result' with
          | error e => exact ⟨rfl, hsame, texts, files, hw, hv⟩
          | ok a =>
              obtain ⟨hresult, hsame, texts', files', hw', hv'⟩ := hf a w' v' hrun hsame
              exact ⟨hresult, hsame, _, _, hw.trans hw', hv.trans hv'⟩

/-- An operation on the context finds the same context in both worlds. -/
theorem onContext {other : ContextId} (hcurrent : w.thread.current = some other)
    (operation : Context → ThreadId → Context.Attempt α) :
    Steady id α (onContext other operation) w := by
  refine ⟨((Bypasses.modular id).onContext hcurrent operation).1, fun hid v h => ?_⟩
  obtain rfl : id = other := Option.some.inj (hid.symm.trans hcurrent)
  cases hc : w.context? id with
  | none =>
      rw [runOn_onContext_missing hc, runOn_onContext_missing (h.context.trans hc)]
      exact ⟨rfl, h, [], [], .refl w, .refl v⟩
  | some c =>
      have hc' := h.context.trans hc
      rw [runOn_onContext hc, runOn_onContext hc', thread_eq_of_setting h.setting]
      refine ⟨rfl, ⟨h.setting, ?_⟩, [], [], ⟨(List.append_nil _).symm, rfl⟩,
        ⟨(List.append_nil _).symm, rfl⟩⟩
      rw [context?_put hc, context?_put hc']

/-- A file can be written in both worlds or in none. -/
theorem together_writeDiagram (h : w.SameFor id v) (tree : Tree) (path : String) :
    Together id w v ((writeDiagram tree path).runOn w) ((writeDiagram tree path).runOn v) := by
  rw [runOn_writeDiagram, runOn_writeDiagram, Disk.write_eq, Disk.write_eq,
    resolve_eq_of_setting h.setting]
  obtain _ | ⟨name⟩ | _ := w.disk.resolve path
  · exact ⟨rfl, h, [], [], .refl w, .refl v⟩
  · exact ⟨rfl, ⟨h.setting, h.context⟩, [], [(name, (Diagram.flatten tree).dot)],
      ⟨(List.append_nil _).symm, rfl⟩, ⟨(List.append_nil _).symm, rfl⟩⟩
  · exact ⟨rfl, h, [], [], .refl w, .refl v⟩

/-- A closed kernel is printed and written in the same way in both worlds. -/
theorem together_dumpClosed (h : w.SameFor id v) (kernel : String) (tree : Tree) :
    Together id w v ((dumpClosed kernel tree).runOn w) ((dumpClosed kernel tree).runOn v) := by
  obtain ⟨w₁, hw, hrunw⟩ := runOn_dumpClosed kernel tree w
  obtain ⟨v₁, hv, hrunv⟩ := runOn_dumpClosed kernel tree v
  have hsetting := h.setting
  rw [treeCopies, dump_eq_of_setting hsetting, h.copies_eq, ← treeCopies] at hv
  have hshown : Together id w v ((.ok () : Except Error Unit), w₁) (.ok (), v₁) :=
    together_of_appends h hw hv
  rw [hrunw, hrunv, dump_eq_of_setting hsetting]
  split
  · exact hshown
  · have hprinted := hv.trans (.print v₁ (Diagram.flatten tree).dot)
    rw [hshown.same.copies_eq] at hprinted
    exact together_of_appends h (hw.trans (.print w₁ _)) hprinted
  · next directory _ _ =>
    obtain ⟨texts, files, hw', hv'⟩ := hshown.outputs
    obtain ⟨hresult, hsame, texts', files', hw'', hv''⟩ :=
      together_writeDiagram hshown.same tree (directory ++ "/" ++ kernel ++ ".dot")
    exact ⟨hresult, hsame, _, _, hw'.trans hw'', hv'.trans hv''⟩

/-- All parts of programs do the same in worlds that are the same for the innermost active
context. -/
theorem modular (id : ContextId) : Modular (Steady id) where
  setting h := h.1
  ofExcept result w := of_known (fun _ => result) (runOn_ofExcept result) fun _ _ => rfl
  bind {_ _ x f w} hx hf := by
    have hsetting : ((x >>= f).runOn w).2.setting = w.setting := by
      rw [runOn_bind]
      have hfirst := hx.1
      cases hrun : x.runOn w with
      | mk result w' =>
          rw [hrun] at hfirst
          cases result with
          | error e => exact hfirst
          | ok a => exact (hf a w' hrun).1.trans hfirst
    refine ⟨hsetting, fun hcurrent v h => together_bind (hx.2 hcurrent v h) ?_⟩
    intro a w' v' hrun h'
    refine (hf a w' hrun).2 ?_ v' h'
    have hthread := thread_eq_of_setting hx.1
    rw [hrun] at hthread
    rwa [hthread]
  target w := of_known (fun w => .ok w.target?) (fun _ => rfl) fun v h =>
    congrArg Except.ok (target?_eq_of_setting h.setting)
  context {w other} hcurrent := by
    refine ⟨by rw [runOn_context_eq], fun hid v h => ?_⟩
    obtain rfl : id = other := Option.some.inj (hid.symm.trans hcurrent)
    rw [runOn_context_eq, runOn_context_eq, h.context]
    exact ⟨rfl, h, [], [], .refl w, .refl v⟩
  onContext hcurrent operation := onContext hcurrent operation
  logScope event n w := by
    obtain ⟨w', hrun, hw⟩ := runOn_logScope_appends event n w
    rw [Steady, hrun]
    refine ⟨hw.setting, fun _ v h => ?_⟩
    obtain ⟨v', hrun', hv⟩ := runOn_logScope_appends event n v
    rw [eventCopies, dump_eq_of_setting h.setting, h.copies_eq, ← eventCopies] at hv
    rw [hrun']
    exact together_of_appends h hw hv
  dumpClosed kernel tree w :=
    ⟨((Bypasses.modular id).dumpClosed kernel tree w).1, fun _ v h =>
      together_dumpClosed h kernel tree⟩

end Steady

end Trace

/-! ## Going on -/

/-- A guard of the context, or one that makes no context active. -/
def GuardScope.IsAt (id : ContextId) (guard : GuardScope) : Prop :=
  ∀ other, guard.context? = some other → other = id

/-- A look at the world that sees nothing of other contexts, print-outs, and files. -/
def GuardedProgram.LooksAt (id : ContextId) (next : World → GuardedProgram) : Prop :=
  ∀ w v : World, w.SameFor id v → next v = next w

/-- The program makes guards of the context only, and looks at no other one. -/
def GuardedProgram.StaysAt (id : ContextId) (p : GuardedProgram) : Prop :=
  p.Obeys (GuardScope.IsAt id) (LooksAt id)

/-- The step functions make guards of the context only, and look at no other one. -/
def Bodies.StayAt (bodies : Bodies) (id : ContextId) : Prop :=
  bodies.Obey (GuardScope.IsAt id) (GuardedProgram.LooksAt id)

/-- What a thread may go on with: an operation on a context, or a program. -/
inductive Move where
  | operation (operation : Operation)
  | program (p : GuardedProgram)

/-- Make a move. The number bounds the nesting of steps. -/
def Bodies.make (bodies : Bodies) (depth : Nat) (id : ContextId) : Move → Trace Unit
  | .operation operation => operation.act id
  | .program p => bodies.run depth p

/-- Make one move after the other, also after a failure, and list the results. -/
def Bodies.goOn (bodies : Bodies) (depth : Nat) (id : ContextId) :
    List Move → Trace (List (Except Error Unit))
  | [] => pure []
  | move :: moves => do
      let result ← observing (bodies.make depth id move)
      let results ← bodies.goOn depth id moves
      return result :: results

namespace Trace.Steady

open World

variable {id : ContextId} {w : World}

/-- A guard of the context leaves it the innermost active one. -/
theorem around {guard : GuardScope} {x : Trace Unit} (hguard : guard.IsAt id)
    (hx : ∀ w', Steady id Unit x w') : Steady id Unit (guard.around x) w := by
  have hsetting (w' : World) := (hx w').1
  refine ⟨?_, fun hcurrent v h => ?_⟩
  · rw [guard.runOn_around_eq hsetting]
    cases guard.inside w.thread with
    | none => rfl
    | some thread => exact congrArg (fun v : World => { v with thread := w.thread }) (hsetting _)
  · have hthread : v.thread = w.thread := thread_eq_of_setting h.setting
    rw [guard.runOn_around_eq hsetting, guard.runOn_around_eq hsetting, hthread]
    cases hinside : guard.inside w.thread with
    | none => exact ⟨rfl, h, [], [], .refl w, .refl v⟩
    | some thread =>
        have hinner : thread.current = some id := by
          rw [GuardScope.current_inside hinside]
          cases hguarded : guard.context? with
          | none => exact hcurrent
          | some other => rw [Option.some_or, hguard other hguarded]
        have hsame : SameFor id { w with thread := thread } { v with thread := thread } :=
          ⟨congrArg (fun v : World => { v with thread := thread }) h.setting, h.context⟩
        obtain ⟨hresult, hafter, texts, files, hw, hv⟩ :=
          (hx { w with thread := thread }).2 hinner _ hsame
        refine ⟨hresult, ⟨?_, hafter.context⟩, texts, files, ⟨hw.printed, hw.files⟩,
          ⟨hv.printed, hv.files⟩⟩
        exact congrArg (fun v : World => { v with thread := w.thread }) hafter.setting

/-- A program that stays at the innermost active context does the same in all worlds that are the
same for it. -/
theorem run {bodies : Bodies} (hbodies : bodies.StayAt id) (depth : Nat) {p : GuardedProgram}
    (hp : p.StaysAt id) (w : World) : Steady id Unit (bodies.run depth p) w := by
  refine (modular id).run (fun _ _ _ hguard hx => around hguard hx) ?_ hbodies depth hp w
  intro invoke next w hlooks hnext
  refine ⟨hnext.1, fun hcurrent v h => ?_⟩
  change World.Together id w v (((next w).run invoke).runOn w) (((next v).run invoke).runOn v)
  rw [hlooks w v h]
  exact hnext.2 hcurrent v h

theorem observing {α : Type} {x : Trace α} (hx : Steady id α x w) :
    Steady id (Except Error α) (observing x) w := by
  rw [Steady, runOn_observing]
  refine ⟨hx.1, fun hcurrent v h => ?_⟩
  obtain ⟨hresult, hsame, houtputs⟩ := hx.2 hcurrent v h
  rw [runOn_observing, hresult]
  exact ⟨rfl, hsame, houtputs⟩

/-- Going on with moves at the innermost active context. -/
theorem goOn {bodies : Bodies} (hbodies : bodies.StayAt id) (depth : Nat) {moves : List Move}
    (hmoves : ∀ p, .program p ∈ moves → p.StaysAt id) (hcurrent : w.thread.current = some id) :
    Steady id (List (Except Error Unit)) (bodies.goOn depth id moves) w := by
  induction moves generalizing w with
  | nil => exact (modular id).pure [] w
  | cons move moves ih =>
      have hfirst : Steady id Unit (bodies.make depth id move) w := by
        cases move with
        | operation operation => exact (modular id).act hcurrent operation
        | program p => exact run hbodies depth (hmoves p List.mem_cons_self) w
      refine (modular id).andThen hfirst.observing fun result w' hw' => ?_
      have hcurrent' : w'.thread.current = some id := by rwa [thread_eq_of_setting hw']
      refine (modular id).andThen (ih (fun p hp => hmoves p (.tail _ hp)) hcurrent') ?_
      exact fun results w'' _ => (modular id).pure _ w''

end Trace.Steady

/-- Sub-traces are isolated. A program that records into another context, and makes no guard of this
one, leaves this one as it is, with the thread, also when it fails. If this context was the
innermost active one, it is so again, and whatever the thread goes on with at this context has the
same results, leaves the same context behind, and prints and writes the same as without the
sub-trace. -/
theorem Bodies.subTrace_isolated {bodies : Bodies} {id other : ContextId} (hne : other ≠ id)
    (hbodies : bodies.Avoid id) (depth : Nat) {p : GuardedProgram} (hp : p.Avoids id) (w : World) :
    let w' := (((GuardScope.recording other).around (bodies.run depth p)).runOn w).2
    w'.context? id = w.context? id ∧ w'.thread = w.thread ∧
      (w.thread.current = some id → ∀ (later : Bodies) (depth : Nat) (moves : List Move),
        later.StayAt id → (∀ p, .program p ∈ moves → p.StaysAt id) →
        w.Together id w' ((later.goOn depth id moves).runOn w)
          ((later.goOn depth id moves).runOn w')) := by
  intro w'
  have hinside (v : World) : Trace.Bypasses id Unit (bodies.run depth p) v :=
    bodies.run_bypasses hbodies depth hp v
  have hsetting (v : World) := (hinside v).1
  have hrun : w' = _ :=
    congrArg Prod.snd ((GuardScope.recording other).runOn_around_eq hsetting w)
  have hcontext : w'.context? id = w.context? id := by
    rw [hrun]
    refine (hinside _).2 ?_
    exact fun hcurrent => hne (Option.some.inj hcurrent)
  have hsame : w.SameFor id w' := by
    refine ⟨?_, hcontext⟩
    rw [hrun]
    exact congrArg (fun v : World => { v with thread := w.thread }) (hsetting _)
  refine ⟨hcontext, World.thread_eq_of_setting hsame.setting, ?_⟩
  intro hcurrent later depth moves hlater hmoves
  exact (Trace.Steady.goOn hlater depth hmoves hcurrent).2 hcurrent w' hsame

/-- A world in the middle of a loop of the first context. -/
def World.inLoop : World where
  contexts := #[some ((Context.fresh 0).after [(0, .openKernel "outer" .unbound none),
    (0, .openLoop none)]), some (Context.fresh 1)]
  thread := { active := [0], mode := .recording }
  disk := default

/-- A kernel with a loop that fails in the middle. -/
def GuardedProgram.broken : GuardedProgram :=
  .launch { name := "inner", grid := .concrete 2 }
    (fun _ => .loop (.concrete 4) (fun _ => .fail .optionNotSet) .done) .done

/-- The step functions do nothing. -/
def Bodies.idle : Bodies :=
  fun _ _ => .done

/-- The world after the kernel has failed in a sub-trace. -/
def World.afterBroken : Except Error Unit × World :=
  ((GuardScope.recording 1).around (Bodies.idle.run 1 .broken)).runOn World.inLoop

/-- A nested loop, and the end of the loop and the kernel around it. -/
def Move.closing : List Move :=
  [.program (.loop (.concrete 8) (fun _ => .done) .done), .operation .closeLoop,
    .operation .closeKernel]

/-- The sub-trace fails and leaves its scopes open, and the loop around it goes on. -/
theorem Bodies.subTrace_isolated_broken :
    World.afterBroken.1 = .error .optionNotSet ∧
      World.afterBroken.2.scopeOf 1 = some ⟨0, 2⟩ ∧
      World.afterBroken.2.context? 0 = World.inLoop.context? 0 ∧
      World.afterBroken.2.thread = World.inLoop.thread ∧
      ((idle.goOn 1 0 Move.closing).runOn World.afterBroken.2).1 = .ok [.ok (), .ok (), .ok ()] ∧
      World.inLoop.Together 0 World.afterBroken.2 ((idle.goOn 1 0 Move.closing).runOn World.inLoop)
        ((idle.goOn 1 0 Move.closing).runOn World.afterBroken.2) := by
  have hne : (1 : ContextId) ≠ 0 := by decide
  have hidle : idle.Avoid 0 := fun _ _ => trivial
  have hbroken : GuardedProgram.broken.Avoids 0 := ⟨fun _ => ⟨fun _ => trivial, trivial⟩, trivial⟩
  obtain ⟨hcontext, hthread, hgoesOn⟩ := subTrace_isolated hne hidle 1 hbroken World.inLoop
  have hstays : ∀ p, Move.program p ∈ Move.closing → p.StaysAt 0 := by
    intro p hp
    have hloop : p = .loop (.concrete 8) (fun _ => .done) .done := by simpa [Move.closing] using hp
    rw [hloop]
    exact ⟨fun _ => trivial, trivial⟩
  have htogether := hgoesOn rfl idle 1 Move.closing (fun _ _ => trivial) hstays
  rw [World.afterBroken]
  refine ⟨?_, ?_, hcontext, hthread, ?_, htogether⟩
  · decide +kernel
  · decide +kernel
  · decide +kernel

end TileTrace
