import TileTrace.Proofs.Ancestors
import TileTrace.Proofs.Freezing
import TileTrace.Proofs.GuardedProgram

/-!
# Guards and scopes are balanced

`World.Later` is what every part of a guarded program keeps, also when it fails:
the thread is as before, and contexts have a longer history. `Balances` says in
addition that a part that returns leaves the scope of every context as it found
it. There is one lemma for each construct of programs. Those for launches and
loops rest on `launchKernel_returns` and `tileLoop_returns`: what is opened is
still the scope of its context when it is closed there, whatever the body did
with guards. `scopes_balanced` is the main theorem.
-/

namespace TileTrace

open Context

theorem Context.after_append (c : Context) (history more : History) :
    c.after (history ++ more) = (c.after history).after more :=
  List.foldl_append

namespace World

/-- All contexts are arranged. -/
def IsArranged (w : World) : Prop :=
  ∀ id c, w.context? id = some c → c.IsArranged

/-- Every context has come about by operations. -/
def IsReached (w : World) : Prop :=
  ∀ id c, w.context? id = some c → ∃ start history, c = (Context.fresh start).after history

theorem IsReached.isArranged {w : World} (h : w.IsReached) : w.IsArranged := by
  intro id c hc
  obtain ⟨start, history, rfl⟩ := h id c hc
  exact isArranged_after start history

/-- The current scope of a context. -/
def scopeOf (w : World) (id : ContextId) : Option Scope :=
  (w.context? id).bind (·.scope)

/-- What every part of a program leaves behind: the thread and the options are as before, and
operations were carried out on contexts. -/
structure Later (w w' : World) : Prop where
  thread : w'.thread = w.thread
  disable : w'.disable = w.disable
  contexts : ∀ id, ∃ history, w'.context? id = (w.context? id).map (·.after history)

namespace Later

variable {w w' w'' : World}

theorem refl (w : World) : w.Later w :=
  ⟨rfl, rfl, fun _ => ⟨[], Option.map_id'.symm⟩⟩

theorem trans (h : w.Later w') (h' : w'.Later w'') : w.Later w'' := by
  refine ⟨h'.thread.trans h.thread, h'.disable.trans h.disable, fun id => ?_⟩
  obtain ⟨history, hhistory⟩ := h.contexts id
  obtain ⟨more, hmore⟩ := h'.contexts id
  refine ⟨history ++ more, ?_⟩
  rw [hmore, hhistory, Option.map_map]
  simp [Function.comp_def, Context.after_append]

/-- Contexts stay arranged. -/
theorem isArranged (h : w.Later w') (hw : w.IsArranged) : w'.IsArranged := by
  intro id c hc
  obtain ⟨history, hhistory⟩ := h.contexts id
  obtain ⟨d, hd, rfl⟩ := Option.map_eq_some_iff.1 (hhistory.symm.trans hc)
  exact ((hw id d hd).after history).1

/-- Contexts keep the places of their nodes. -/
theorem places (h : w.Later w') (hw : w.IsArranged) {id : ContextId} {c d : Context}
    (hc : w.context? id = some c) (hd : w'.context? id = some d) : c.places <+: d.places := by
  obtain ⟨history, hhistory⟩ := h.contexts id
  rw [hc, hd] at hhistory
  obtain rfl := Option.some.inj hhistory
  exact ((hw id c hc).after history).2

/-- The same context is recorded into. -/
theorem target? (h : w.Later w') : w'.target? = w.target? := by
  unfold World.target? isRecording
  rw [h.thread, h.disable]

end Later

theorem scopeOf_of_context? {w : World} {id : ContextId} {c : Context}
    (h : w.context? id = some c) : w.scopeOf id = c.scope := by
  rw [scopeOf, h, Option.bind_some]

theorem Records.scopeOf {w : World} {id : ContextId} {c : Context} (h : w.Records id c) :
    w.scopeOf id = c.scope := by
  obtain ⟨owner, hcontext⟩ := h.context
  exact (scopeOf_of_context? hcontext).trans rfl

end World

open World

/-! ## Operations -/

namespace Operation

variable {w : World} {id other : ContextId} {c : Context}

/-- An operation leaves in the world what it leaves of its context, and else it changes print-outs
and files only. -/
theorem act_alike (h : w.context? id = some c) (operation : Operation) :
    (w.put id (operation.perform w.thread.id c).2).Alike ((operation.act id).runOn w).2 := by
  cases act_attempts h operation with
  | refused e changed hattempt hrun =>
      rw [hrun, hattempt]
      exact .refl _
  | returns b changed a w' hattempt hrun halike =>
      rw [hrun, hattempt]
      exact halike
  | fails b changed e w' hattempt hrun halike he =>
      rw [hrun, hattempt]
      exact halike

/-- After an operation the world is later. -/
theorem act_later (id : ContextId) (w : World) (operation : Operation) :
    w.Later ((operation.act id).runOn w).2 := by
  cases hc : w.context? id with
  | none =>
      rw [act_missing hc]
      exact .refl w
  | some c =>
      have halike := act_alike hc operation
      refine ⟨halike.thread, halike.disable, fun other => ?_⟩
      by_cases hother : id = other
      · subst hother
        refine ⟨[(w.thread.id, operation)], ?_⟩
        rw [halike.context?, context?_put hc, hc]
        rfl
      · refine ⟨[], ?_⟩
        rw [operation.act_elsewhere hother]
        exact Option.map_id'.symm

end Operation

/-! ## Parts of programs -/

namespace Trace

variable {α β : Type} {w w' : World}

/-- A computation leads to a later world, whether it returns or fails. -/
def Advances (x : Trace α) (w : World) : Prop :=
  w.Later (x.runOn w).2

/-- A computation leads to a later world, and if it returns, the scopes are as before. -/
def Balances (x : Trace α) (w : World) : Prop :=
  Advances x w ∧ ∀ a w', x.runOn w = (.ok a, w') → ∀ id, w'.scopeOf id = w.scopeOf id

namespace Advances

theorem later {x : Trace α} {result : Except Error α} (h : Advances x w)
    (hrun : x.runOn w = (result, w')) : w.Later w' := by
  rw [Advances, hrun] at h
  exact h

theorem of_snd_eq {x : Trace α} (h : (x.runOn w).2 = w) : Advances x w := by
  rw [Advances, h]
  exact .refl w

theorem bind {x : Trace α} {f : α → Trace β} (hx : Advances x w)
    (hf : ∀ a w', x.runOn w = (.ok a, w') → Advances (f a) w') : Advances (x >>= f) w := by
  rw [Advances, runOn_bind]
  cases hrun : x.runOn w with
  | mk result w' =>
      have hlater := hx.later hrun
      cases result with
      | ok a => exact hlater.trans (hf a w' hrun)
      | error e => exact hlater

theorem of_finished {x : Trace α} (h : Advances (do let _ ← x; return ()) w) : Advances x w := by
  rw [Advances, ← runOn_finished_snd]
  exact h

theorem act (id : ContextId) (operation : Operation) : Advances (operation.act id) w :=
  operation.act_later id w

end Advances

namespace Balances

theorem of_eq {x : Trace α} {result : Except Error α} (h : x.runOn w = (result, w)) :
    Balances x w := by
  refine ⟨.of_snd_eq (congrArg Prod.snd h), fun a w' hrun => ?_⟩
  obtain ⟨-, rfl⟩ := Prod.mk.inj (h.symm.trans hrun)
  exact fun _ => rfl

theorem pure (a : α) : Balances (pure a) w :=
  of_eq rfl

theorem throw (e : Error) : Balances (throw e : Trace α) w :=
  of_eq rfl

theorem ofExcept (result : Except Error α) : Balances (ofExcept result) w :=
  of_eq (runOn_ofExcept result w)

theorem bind {x : Trace α} {f : α → Trace β} (hx : Balances x w)
    (hf : ∀ a w', x.runOn w = (.ok a, w') → Balances (f a) w') : Balances (x >>= f) w := by
  refine ⟨hx.1.bind fun a w' hrun => (hf a w' hrun).1, fun b w'' hrun id => ?_⟩
  obtain ⟨a, w', hfirst, hrest⟩ := bind_ok.1 hrun
  exact ((hf a w' hfirst).2 b w'' hrest id).trans (hx.2 a w' hfirst id)

/-- A computation whose every part balances. Later worlds stay arranged. -/
theorem bind_arranged {x : Trace α} {f : α → Trace β} (hw : w.IsArranged) (hx : Balances x w)
    (hf : ∀ a w', w'.IsArranged → Balances (f a) w') : Balances (x >>= f) w :=
  hx.bind fun a w' hrun => hf a w' ((hx.1.later hrun).isArranged hw)

theorem forM {xs : List α} {f : α → Trace Unit} (hf : ∀ a w', Balances (f a) w') :
    Balances (xs.forM f) w := by
  induction xs generalizing w with
  | nil => exact pure ()
  | cons a xs ih => exact (hf a w).bind fun _ _ _ => ih

/-- An operation that neither opens nor closes. -/
theorem act (operation : Operation) (id : ContextId)
    (h : ∀ c d, Operation.Step c operation d → d.scope = c.scope) :
    Balances (operation.act id) w := by
  refine ⟨.act id operation, fun a w' hrun other => ?_⟩
  obtain rfl : w' = ((operation.act id).runOn w).2 := by rw [hrun]
  by_cases hother : id = other
  · subst hother
    cases hc : w.context? id with
    | none => rw [operation.act_missing hc]
    | some c =>
        have hcontext := (operation.act_context? hc).1
        rw [scopeOf_of_context? hcontext, scopeOf_of_context? hc]
        exact Operation.perform_cases (P := fun attempt => attempt.2.scope = c.scope)
          (fun changed hstep => (h _ changed hstep).trans rfl) (fun _ => rfl) fun _ => rfl
  · rw [scopeOf, operation.act_elsewhere hother, scopeOf]

theorem addKernelInput (id : ContextId) (handle : Handle) :
    Balances (Trace.addKernelInput id handle) w := by
  refine act (.addKernelInput handle) id fun c d hstep => ?_
  cases hstep
  rfl

theorem addKernelOutput (id : ContextId) (handle : Handle) :
    Balances (Trace.addKernelOutput id handle) w := by
  refine act (.addKernelOutput handle) id fun c d hstep => ?_
  cases hstep
  rfl

/-- What comes before the function of a step. -/
theorem beforeStep (d : StepDefinition) (args : List Argument) :
    Balances (FrontEnd.beforeStep d args) w := by
  refine (ofExcept _).bind fun _ _ _ => ?_
  refine Balances.bind (of_eq rfl) fun found w' _ => ?_
  cases found with
  | none => exact pure ()
  | some id =>
      refine (ofExcept _).bind fun tag _ _ => ?_
      refine act (.recordStep d tag d.requestedId (StepDefinition.inputsOf args)) id ?_
      intro c changed hstep
      cases hstep
      rfl

variable {body : Value → Trace Unit}

theorem countFrom (hw : w.IsArranged) (hbody : ∀ v w', w'.IsArranged → Balances (body v) w')
    (start count : Nat) : Balances (FrontEnd.countFrom body start count) w := by
  induction count generalizing start w with
  | zero => exact pure ()
  | succ count ih => exact (hbody _ w hw).bind_arranged hw fun _ w' hw' => ih hw' (start + 1)

/-- A body that runs for every index. -/
theorem runConcrete (hw : w.IsArranged) (hbody : ∀ v w', w'.IsArranged → Balances (body v) w')
    (what : String) (extent : Value) : Balances (FrontEnd.runConcrete what extent body) w := by
  cases extent with
  | concrete word => exact countFrom hw hbody 0 _
  | _ => exact throw _

/-- A computation inside a guard starts on another thread and ends on the same one. -/
theorem around {guard : GuardScope} {x : Trace Unit} (hw : w.IsArranged)
    (hx : ∀ w', w'.IsArranged → Balances x w') : Balances (guard.around x) w := by
  cases hinside : guard.inside w.thread with
  | none => exact of_eq (GuardScope.runOn_around_missing hinside)
  | some thread =>
      obtain ⟨hadvances, hscopes⟩ := hx { w with thread := thread } hw
      have hrun := GuardScope.runOn_around (x := x) hinside rfl hadvances.thread
      refine ⟨?_, fun a w' hreturns id => ?_⟩
      · rw [Advances, hrun]
        exact ⟨rfl, hadvances.disable, hadvances.contexts⟩
      · obtain ⟨hresult, rfl⟩ := Prod.mk.inj (hrun.symm.trans hreturns)
        exact hscopes a _ (Prod.ext_iff.2 ⟨hresult, rfl⟩) id

end Balances

/-! ## Launches and loops -/

section

variable {id : ContextId} {body : Value → Trace Unit} {launch : Launch} {extent : Value}

/-- An operation leaves the scopes of other contexts. -/
theorem scopeOf_elsewhere (operation : Operation) {x : Trace α} {a : α} {other : ContextId}
    (hx : (do let _ ← x; return () : Trace Unit) = operation.act id)
    (hrun : x.runOn w = (.ok a, w')) (hne : other ≠ id) : w'.scopeOf other = w.scopeOf other := by
  have hworld : w' = ((operation.act id).runOn w).2 := by
    rw [← hx, runOn_finished_snd, hrun]
  rw [scopeOf, hworld, operation.act_elsewhere hne.symm, scopeOf]

/-- A computation that goes on with the context that is recorded into. -/
theorem runOn_target?_bind (f : Option ContextId → Trace α) (w : World) :
    (liftM FrontEnd.target? >>= f : Trace α).runOn w = (f w.target?).runOn w :=
  runOn_bind _ f w

/-- Without recording a launch runs its body for every block. -/
theorem runOn_launchKernel_idle (h : w.target? = none) :
    (FrontEnd.launchKernel launch body).runOn w =
      (FrontEnd.runConcrete "grid size" launch.grid body).runOn w := by
  rw [FrontEnd.launchKernel, runOn_target?_bind, h]

/-- With recording a launch opens a kernel, runs its body, and closes the kernel. -/
theorem runOn_launchKernel (h : w.target? = some id) :
    (FrontEnd.launchKernel launch body).runOn w =
      (do
        let block ← FrontEnd.openLaunch id launch
        body block
        Operation.closeKernel.act id : Trace Unit).runOn w := by
  rw [FrontEnd.launchKernel, runOn_target?_bind, h]
  rfl

/-- Without recording a loop runs its body for every index. -/
theorem runOn_tileLoop_idle (h : w.target? = none) :
    (FrontEnd.tileLoop extent body).runOn w =
      (FrontEnd.runConcrete "loop extent" extent body).runOn w := by
  rw [FrontEnd.tileLoop, runOn_target?_bind, h]

/-- With recording a loop opens a scope, runs its body, and closes the scope. -/
theorem runOn_tileLoop (h : w.target? = some id) :
    (FrontEnd.tileLoop extent body).runOn w =
      (do
        let loop ← Trace.openLoop id (some extent)
        let index ← Trace.ofExcept loop.induction
        body index
        Trace.closeLoop id : Trace Unit).runOn w := by
  rw [FrontEnd.tileLoop, runOn_target?_bind, h]
  rfl

/-- An operation that returns has found its context. -/
theorem exists_context {f : α → Trace β} {operation : Context → ThreadId → Context.Attempt α}
    {b : β} (h : (Trace.onContext id operation >>= f).runOn w = (.ok b, w')) :
    ∃ c, w.context? id = some c := by
  cases hc : w.context? id with
  | none =>
      rw [runOn_bind, runOn_onContext_missing hc] at h
      cases h
  | some c => exact ⟨c, rfl⟩

/-- Adding inputs and outputs leaves the scopes. -/
theorem Balances.addHandles (id : ContextId) (launch : Launch) (grid : Node) :
    Balances (do
      launch.inputs.forM (Trace.addKernelInput id)
      launch.outputs.forM (Trace.addKernelOutput id)
      Trace.ofExcept grid.induction) w :=
  (Balances.forM fun handle _ => .addKernelInput id handle).bind fun _ _ _ =>
    (Balances.forM fun handle _ => .addKernelOutput id handle).bind fun _ _ _ => .ofExcept _

/-- Opening a launch leads to a later world. -/
theorem openLaunch_advances (id : ContextId) (launch : Launch) :
    Advances (FrontEnd.openLaunch id launch) w :=
  Advances.bind (.of_finished (.act id (.openKernel _ _ _))) fun opened _ _ =>
    (Balances.addHandles id launch opened.2).1

/-- Opening a launch makes the grid loop of a new kernel the scope of its context, which had none,
and leaves the scopes of other contexts. -/
theorem openLaunch_ok {block : Value} (htarget : w.target? = some id)
    (hrun : (FrontEnd.openLaunch id launch).runOn w = (.ok block, w')) :
    ∃ c, w.context? id = some c ∧ c.scope = none ∧
      w'.scopeOf id = some ⟨c.size, c.size + 1⟩ ∧
      ∀ other, other ≠ id → w'.scopeOf other = w.scopeOf other := by
  obtain ⟨⟨kernel, grid⟩, w₁, hopen, hrest⟩ := bind_ok.1 hrun
  obtain ⟨c, hc⟩ := exists_context hopen
  have hrecords : w.Records id c := ⟨⟨c.owner, hc⟩, htarget⟩
  obtain ⟨hscope, -, hopened⟩ := hrecords.openKernel hopen
  have hscopes := (Balances.addHandles id launch grid).2 _ _ hrest
  refine ⟨c, hc, hscope, by rw [hscopes, hopened.scopeOf]; rfl, fun other hne => ?_⟩
  rw [hscopes, scopeOf_elsewhere (.openKernel _ _ _) rfl hopen hne]

/-- Closing a kernel answers with the open one. -/
theorem closeKernel_answer {kernel : Node} (hc : w.context? id = some c)
    (hrun : (Trace.closeKernel id).runOn w = (.ok kernel, w')) :
    ∃ scope, c.scope = some scope ∧ c.node? scope.kernel = some kernel := by
  obtain ⟨⟨closed, grid⟩, w₁, hclose, hrun⟩ := bind_ok.1 hrun
  obtain ⟨_, w₂, -, hrun⟩ := bind_ok.1 hrun
  obtain ⟨_, w₃, -, hrun⟩ := bind_ok.1 hrun
  obtain ⟨_, w₄, -, hprint⟩ := bind_ok.1 hrun
  have hanswer : kernel = closed := by
    dsimp only at hprint
    split at hprint
    · obtain ⟨_, w₅, -, hreturn⟩ := bind_ok.1 hprint
      exact (pure_ok.1 hreturn).1
    · exact (pure_ok.1 hprint).1
  rw [runOn_onContext hc] at hclose
  obtain ⟨scope, hscope, hkernel, -⟩ :=
    Context.closeKernel_ok (Prod.ext_iff.2 ⟨(Prod.mk.inj hclose).1, rfl⟩)
  exact ⟨scope, hscope, hanswer ▸ hkernel⟩

/-- What a launch does that is recorded and returns. Outside of kernels it opens a kernel, which is
still open when the body has run, and this is the kernel that it closes. -/
structure LaunchRun (id : ContextId) (launch : Launch) (body : Value → Trace Unit)
    (w w' : World) where
  before : Context
  block : Value
  opened : World
  finished : World
  kernel : Node
  found : w.context? id = some before
  outside : before.scope = none
  opens : (FrontEnd.openLaunch id launch).runOn w = (.ok block, opened)
  scope : opened.scopeOf id = some ⟨before.size, before.size + 1⟩
  runsBody : (body block).runOn opened = (.ok (), finished)
  stays : finished.scopeOf id = opened.scopeOf id
  closes : (Trace.closeKernel id).runOn finished = (.ok kernel, w')
  same : kernel.id = before.size
  closed : w'.scopeOf id = none
  elsewhere : ∀ other, other ≠ id → w'.scopeOf other = w.scopeOf other

/-- What a loop does that is recorded and returns. It opens a loop in the current scope, which is
still the scope when the body has run, and when it is closed, the scope before is back. -/
structure LoopRun (id : ContextId) (extent : Value) (body : Value → Trace Unit)
    (w w' : World) where
  before : Context
  outer : Scope
  loop : Node
  index : Value
  opened : World
  finished : World
  found : w.context? id = some before
  inside : before.scope = some outer
  opens : (Trace.openLoop id (some extent)).runOn w = (.ok loop, opened)
  new : loop.id = before.size
  scope : opened.scopeOf id = some ⟨outer.kernel, loop.id⟩
  hasIndex : loop.induction = .ok index
  runsBody : (body index).runOn opened = (.ok (), finished)
  stays : finished.scopeOf id = opened.scopeOf id
  closes : (Trace.closeLoop id).runOn finished = (.ok (), w')
  back : w'.scopeOf id = some outer
  elsewhere : ∀ other, other ≠ id → w'.scopeOf other = w.scopeOf other

/-- A recorded launch that returns has closed the kernel that it opened. -/
theorem launchKernel_returns (htarget : w.target? = some id) (hw : w.IsArranged)
    (hbody : ∀ v w', w'.IsArranged → Balances (body v) w')
    (hrun : (FrontEnd.launchKernel launch body).runOn w = (.ok (), w')) :
    Nonempty (LaunchRun id launch body w w') := by
  rw [runOn_launchKernel htarget] at hrun
  obtain ⟨block, w₁, hopen, hrun⟩ := bind_ok.1 hrun
  obtain ⟨_, w₂, hbodyRun, hrun⟩ := bind_ok.1 hrun
  obtain ⟨closed, w₃, hclose, hreturn⟩ := bind_ok.1 hrun
  obtain ⟨-, rfl⟩ := pure_ok.1 hreturn
  obtain ⟨c, hc, hscope, hopened, helsewhere⟩ := openLaunch_ok htarget hopen
  have hlater := (openLaunch_advances id launch).later hopen
  obtain ⟨hadvances, hscopes⟩ := hbody block w₁ (hlater.isArranged hw)
  have htarget₂ : w₂.target? = some id :=
    ((hlater.trans (hadvances.later hbodyRun)).target?).trans htarget
  obtain ⟨d, hd⟩ := exists_context hclose
  have hrecords : w₂.Records id d := ⟨⟨d.owner, hd⟩, htarget₂⟩
  have hstays := hscopes _ _ hbodyRun id
  have hsame : closed.id = c.size := by
    obtain ⟨scope, hscope, hkernel⟩ := closeKernel_answer hd hclose
    rw [hopened, hrecords.scopeOf, hscope] at hstays
    obtain rfl := Option.some.inj hstays
    have hw₂ := (hadvances.later hbodyRun).isArranged (hlater.isArranged hw)
    exact (hw₂ id d hd).id_eq hkernel
  exact ⟨{
    before := c, block := block, opened := w₁, finished := w₂, kernel := closed
    found := hc, outside := hscope, opens := hopen, scope := hopened, runsBody := hbodyRun
    stays := hstays, closes := hclose, same := hsame
    closed := (hrecords.closeKernel hclose).scopeOf
    elsewhere := fun other hne => by
      rw [scopeOf_elsewhere .closeKernel rfl hclose hne, hscopes _ _ hbodyRun,
        helsewhere other hne] }⟩

/-- A recorded loop that returns has closed the scope that it opened. -/
theorem tileLoop_returns (htarget : w.target? = some id) (hw : w.IsArranged)
    (hbody : ∀ v w', w'.IsArranged → Balances (body v) w')
    (hrun : (FrontEnd.tileLoop extent body).runOn w = (.ok (), w')) :
    Nonempty (LoopRun id extent body w w') := by
  rw [runOn_tileLoop htarget] at hrun
  obtain ⟨loop, _, hopen, hafterOpen⟩ := bind_ok.1 hrun
  obtain ⟨index, w₁, hanswer, hafterIndex⟩ := bind_ok.1 hafterOpen
  obtain ⟨hindex, rfl⟩ := ofExcept_ok.1 hanswer
  obtain ⟨_, w₂, hbodyRun, hclose⟩ := bind_ok.1 hafterIndex
  -- The loop is opened in the scope of the context.
  obtain ⟨c, hc⟩ := exists_context hopen
  have hrecords : w.Records id c := ⟨⟨c.owner, hc⟩, htarget⟩
  obtain ⟨scope, outer, hscope, houter, rfl, hopened⟩ := hrecords.openLoop hopen
  have hlater : w.Later w₁ := Advances.later (.of_finished (.act id (.openLoop _))) hopen
  have hw₁ := hlater.isArranged hw
  -- The body leaves the scope, and the place of the loop in the record.
  obtain ⟨hadvances, hscopes⟩ := hbody index w₁ hw₁
  have hlater₂ := hadvances.later hbodyRun
  have htarget₂ : w₂.target? = some id := ((hlater.trans hlater₂).target?).trans htarget
  have hstays := hscopes _ _ hbodyRun id
  -- So the scope that is closed is the loop, and its parent is the scope before.
  obtain ⟨d, hd⟩ := exists_context hclose
  have hrecords₂ : w₂.Records id d := ⟨⟨d.owner, hd⟩, htarget₂⟩
  obtain ⟨scope₂, loop₂, outer₂, hscope₂, hloop₂, hparent, hclosed⟩ := hrecords₂.closeLoop hclose
  obtain rfl : scope₂ = ⟨scope.kernel, c.size⟩ := by
    rw [hopened.scopeOf, hrecords₂.scopeOf, hscope₂] at hstays
    exact Option.some.inj hstays
  obtain ⟨owner, hc₁⟩ := hopened.context
  obtain ⟨m, hm, hplace⟩ := exists_node?_of_isPrefix (hlater₂.places hw₁ hc₁ hd)
    (c.node?_withLoop scope.kernel outer (some extent))
  obtain rfl := Option.some.inj (hloop₂.symm.trans hm)
  have hback : outer₂ = scope.loop := by
    have hsame : loop₂.parent = some outer.id := congrArg Place.parent hplace
    rw [hparent, (hw id c hc).id_eq houter] at hsame
    exact Option.some.inj hsame
  exact ⟨{
    before := c, outer := scope, loop := _, index := index, opened := w₁, finished := w₂
    found := hc, inside := hscope, opens := hopen, new := rfl, scope := hopened.scopeOf
    hasIndex := hindex, runsBody := hbodyRun, stays := hstays, closes := hclose
    back := by rw [hclosed.scopeOf, hback]
    elsewhere := fun other hne => by
      rw [scopeOf_elsewhere .closeLoop rfl hclose hne, hscopes _ _ hbodyRun,
        scopeOf_elsewhere (.openLoop _) rfl hopen hne] }⟩

namespace Balances

/-- A launch balances when its body does. -/
theorem launchKernel (hw : w.IsArranged) (hbody : ∀ v w', w'.IsArranged → Balances (body v) w') :
    Balances (FrontEnd.launchKernel launch body) w := by
  cases htarget : w.target? with
  | none =>
      rw [Balances, Advances, runOn_launchKernel_idle htarget]
      exact runConcrete hw hbody "grid size" launch.grid
  | some id =>
      constructor
      · rw [Advances, runOn_launchKernel htarget]
        refine (openLaunch_advances id launch).bind fun block w₁ hopen => ?_
        have hw₁ := ((openLaunch_advances id launch).later hopen).isArranged hw
        exact (hbody block w₁ hw₁).1.bind fun _ _ _ => .act id .closeKernel
      · intro _ w' hrun other
        obtain ⟨launched⟩ := launchKernel_returns htarget hw hbody hrun
        by_cases hother : other = id
        · rw [hother, launched.closed, scopeOf_of_context? launched.found, launched.outside]
        · exact launched.elsewhere other hother

/-- A loop balances when its body does. -/
theorem tileLoop (hw : w.IsArranged) (hbody : ∀ v w', w'.IsArranged → Balances (body v) w') :
    Balances (FrontEnd.tileLoop extent body) w := by
  cases htarget : w.target? with
  | none =>
      rw [Balances, Advances, runOn_tileLoop_idle htarget]
      exact runConcrete hw hbody "loop extent" extent
  | some id =>
      constructor
      · rw [Advances, runOn_tileLoop htarget]
        have hopens : Advances (Trace.openLoop id (some extent)) w :=
          .of_finished (.act id (.openLoop _))
        refine hopens.bind fun loop w₁ hopen => (ofExcept _).1.bind fun index w₂ hindex => ?_
        obtain ⟨-, rfl⟩ := ofExcept_ok.1 hindex
        exact (hbody index w₂ ((hopens.later hopen).isArranged hw)).1.bind fun _ _ _ =>
          .of_finished (.act id .closeLoop)
      · intro _ w' hrun other
        obtain ⟨looped⟩ := tileLoop_returns htarget hw hbody hrun
        by_cases hother : other = id
        · rw [hother, looped.back, scopeOf_of_context? looped.found, looped.inside]
        · exact looped.elsewhere other hother

end Balances

end

/-! ## Programs -/

namespace Balances

/-- A program balances when invocations of steps do. -/
theorem run {invoke : StepDefinition → List Argument → Trace Unit}
    (hinvoke : ∀ step args w, w.IsArranged → Balances (invoke step args) w) (p : GuardedProgram)
    (hw : w.IsArranged) : Balances (p.run invoke) w := by
  induction p generalizing w with
  | done => exact pure ()
  | fail error => exact throw error
  | look next ih => exact Balances.bind (of_eq runOn_get) fun v w' hget => ih v (by simp_all)
  | guarded guard body rest ihbody ihrest =>
      exact (around hw fun _ => ihbody).bind_arranged hw fun _ _ => ihrest
  | launch kernel body rest ihbody ihrest =>
      exact (launchKernel hw fun v _ => ihbody v).bind_arranged hw fun _ _ => ihrest
  | loop extent body rest ihbody ihrest =>
      exact (tileLoop hw fun v _ => ihbody v).bind_arranged hw fun _ _ => ihrest
  | call step args rest ih =>
      exact (hinvoke step args w hw).bind_arranged hw fun _ _ => ih

/-- Invocations of steps balance, however deep they nest. -/
theorem invoke (bodies : Bodies) (depth : Nat) (step : StepDefinition) (args : List Argument)
    (w : World) (hw : w.IsArranged) : Balances (bodies.invoke depth step args) w := by
  induction depth generalizing step args w with
  | zero => exact throw .tooDeep
  | succ depth ih =>
      exact (beforeStep step args).bind_arranged hw fun _ _ hw' =>
        run ih (bodies step.function args) hw'

end Balances

end Trace

open Trace

/-- Guards and scopes are balanced on every exit. However a program ends, the thread is as it was
at the start. If it returns, so is the scope of every context: a launch that is recorded closes in
the same context the very kernel that it opened, and so does a loop, whatever contexts and modes
their bodies go through. -/
theorem Bodies.scopes_balanced (bodies : Bodies) (depth : Nat) {w : World} (hw : w.IsReached) :
    (∀ p result w', (bodies.run depth p).runOn w = (result, w') →
      w'.thread = w.thread ∧ (result = .ok () → ∀ id, w'.scopeOf id = w.scopeOf id)) ∧
    (∀ id launch (body : Value → GuardedProgram) w', w.target? = some id →
      (FrontEnd.launchKernel launch fun v => bodies.run depth (body v)).runOn w = (.ok (), w') →
      Nonempty (LaunchRun id launch (fun v => bodies.run depth (body v)) w w')) ∧
    ∀ id extent (body : Value → GuardedProgram) w', w.target? = some id →
      (FrontEnd.tileLoop extent fun v => bodies.run depth (body v)).runOn w = (.ok (), w') →
      Nonempty (LoopRun id extent (fun v => bodies.run depth (body v)) w w') := by
  have hbalances (p : GuardedProgram) (w : World) (hw : w.IsArranged) :
      Balances (bodies.run depth p) w := .run (Balances.invoke bodies depth) p hw
  refine ⟨fun p result w' hrun => ?_, fun id launch body w' htarget hrun => ?_,
    fun id extent body w' htarget hrun => ?_⟩
  · obtain ⟨hadvances, hscopes⟩ := hbalances p w hw.isArranged
    refine ⟨(hadvances.later hrun).thread, ?_⟩
    rintro rfl
    exact hscopes () w' hrun
  · exact launchKernel_returns htarget hw.isArranged (fun v => hbalances (body v)) hrun
  · exact tileLoop_returns htarget hw.isArranged (fun v => hbalances (body v)) hrun

/-- A kernel whose body records a kernel of another context, and in it runs a loop without
recording and the given program. -/
def GuardedProgram.crossing (last : GuardedProgram) : GuardedProgram :=
  .guarded (.recording 0)
    (.launch { name := "outer", grid := .concrete 4 }
      (fun _ => .guarded (.recording 1)
        (.launch { name := "inner", grid := .concrete 2 }
          (fun _ => .guarded (.mode .normal) (.loop (.concrete 2) (fun _ => .done) .done) last)
          .done)
        (.loop (.concrete 8) (fun _ => .guarded (.context (some 1)) .done .done) .done))
      .done)
    .done

/-- A world with two contexts. -/
def World.pair : World :=
  { contexts := #[some (Context.fresh 0), some (Context.fresh 1)], disk := default }

/-- How the program that crosses over ends. -/
def GuardedProgram.crossed (last : GuardedProgram) : Except Error Unit × World :=
  (Bodies.run (fun _ _ => .done) 1 (.crossing last)).runOn World.pair

/-- The program that crosses over to another context returns with all scopes closed. If it fails in
the inner kernel, the thread is brought back, and both kernels stay open. -/
theorem Bodies.scopes_balanced_crossing :
    (GuardedProgram.crossed .done).1 = .ok () ∧
    ((GuardedProgram.crossed .done).2.context? 0).map (·.size) = some 3 ∧
    ((GuardedProgram.crossed .done).2.context? 1).map (·.size) = some 2 ∧
    (GuardedProgram.crossed .done).2.thread = World.pair.thread ∧
    (∀ id, (GuardedProgram.crossed .done).2.scopeOf id = World.pair.scopeOf id) ∧
    (GuardedProgram.crossed (.fail .optionNotSet)).1 = .error .optionNotSet ∧
    (GuardedProgram.crossed (.fail .optionNotSet)).2.scopeOf 0 = some ⟨0, 1⟩ ∧
    (GuardedProgram.crossed (.fail .optionNotSet)).2.scopeOf 1 = some ⟨0, 1⟩ ∧
    (GuardedProgram.crossed (.fail .optionNotSet)).2.thread = World.pair.thread := by
  have hreached : World.pair.IsReached := by
    rintro (_ | _ | id) c hc
    · exact ⟨0, [], (Option.some.inj hc).symm⟩
    · exact ⟨1, [], (Option.some.inj hc).symm⟩
    · simp [World.context?, World.pair] at hc
  have hbalanced (last : GuardedProgram) :
      (GuardedProgram.crossed last).2.thread = World.pair.thread ∧
        ((GuardedProgram.crossed last).1 = .ok () →
          ∀ id, (GuardedProgram.crossed last).2.scopeOf id = World.pair.scopeOf id) :=
    (scopes_balanced (fun _ _ => .done) 1 hreached).1 (.crossing last) _ _ (Prod.mk.eta).symm
  have hreturns : (GuardedProgram.crossed .done).1 = .ok () := by decide +kernel
  refine ⟨hreturns, ?_, ?_, (hbalanced .done).1, (hbalanced .done).2 hreturns, ?_, ?_, ?_,
    (hbalanced (.fail .optionNotSet)).1⟩
  · decide +kernel
  · decide +kernel
  · decide +kernel
  · decide +kernel
  · decide +kernel

end TileTrace
