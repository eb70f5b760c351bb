import TileTrace.Proofs.GuardedProgram
import TileTrace.Proofs.PrintOuts

/-!
# Induction on guarded programs

What every part of a program does can be proved part by part. `Trace.Modular`
lists what a property of computations needs for that: it holds of the parts that
launches, loops, and steps are made of, and of computations one after the other.
`Modular.run` says that such a property holds of whole programs, as far as it
holds inside their guards and after their looks at the world. Everything that a
program does keeps the setting of the world, so that a part is always recorded
into the context that the part before it was recorded into.
-/

namespace TileTrace

namespace Trace

open World

/-- Looking for a context changes nothing. -/
theorem runOn_context_eq (id : ContextId) (w : World) :
    (context id).runOn w =
      (match w.context? id with
        | some c => .ok c
        | none => .error (.unknownName "context"), w) := by
  rw [context, runOn_bind, runOn_get]
  dsimp only
  cases w.context? id <;> rfl

/-- A property of computations, at the world where they start, that the parts of programs have. What
is done to a context is only done to the innermost active one. -/
structure Modular (P : (α : Type) → Trace α → World → Prop) : Prop where
  setting : ∀ {α : Type} {x : Trace α} {w : World}, P α x w → (x.runOn w).2.setting = w.setting
  ofExcept : ∀ {α : Type} (result : Except Error α) (w : World), P α (ofExcept result) w
  bind : ∀ {α β : Type} {x : Trace α} {f : α → Trace β} {w : World}, P α x w →
    (∀ a w', x.runOn w = (.ok a, w') → P β (f a) w') → P β (x >>= f) w
  target : ∀ w : World, P (Option ContextId) FrontEnd.target? w
  context : ∀ {w : World} {id : ContextId}, w.thread.current = some id →
    P Context (context id) w
  onContext : ∀ {α : Type} {w : World} {id : ContextId}, w.thread.current = some id →
    ∀ operation : Context → ThreadId → Context.Attempt α, P α (onContext id operation) w
  logScope : ∀ (event : String) (n : Node) (w : World), P Unit (logScope event n) w
  dumpClosed : ∀ (kernel : String) (tree : Tree) (w : World), P Unit (dumpClosed kernel tree) w

namespace Modular

variable {P : (α : Type) → Trace α → World → Prop} {α β : Type} {w : World} {id : ContextId}
  {launch : Launch} {extent : Value} {body : Value → Trace Unit}
  {invoke : StepDefinition → List Argument → Trace Unit}

section Parts

variable (hP : Modular P)
include hP

theorem pure (a : α) (w : World) : P α (pure a) w :=
  hP.ofExcept (.ok a) w

theorem throw (e : Error) (w : World) : P α (throw e) w :=
  hP.ofExcept (.error e) w

/-- The second of two computations starts in the setting of the first one. -/
theorem andThen {x : Trace α} {f : α → Trace β} (hx : P α x w)
    (hf : ∀ a w', w'.setting = w.setting → P β (f a) w') : P β (x >>= f) w := by
  refine hP.bind hx fun a w' hrun => hf a w' ?_
  have hsetting := hP.setting hx
  rwa [hrun] at hsetting

theorem forM {xs : List α} {f : α → Trace Unit}
    (hf : ∀ a w', w'.setting = w.setting → P Unit (f a) w') : P Unit (xs.forM f) w := by
  induction xs generalizing w with
  | nil => exact hP.pure () w
  | cons a xs ih =>
      refine hP.andThen (hf a w rfl) fun _ w' hw' => ih fun b w'' hw'' => ?_
      exact hf b w'' (hw''.trans hw')

/-! ### Operations -/

section Operations

variable (hcurrent : w.thread.current = some id)
include hcurrent

theorem openKernel (name : String) (template : Coordinate) (extent : Option Value) :
    P (Node × Node) (openKernel id name template extent) w := by
  refine hP.andThen (hP.onContext hcurrent _) ?_
  rintro ⟨kernel, grid⟩ w₁ -
  refine hP.andThen (hP.logScope _ _ _) fun _ w₂ _ => ?_
  exact hP.andThen (hP.logScope _ _ _) fun _ w₃ _ => hP.pure _ _

theorem openLoop (extent : Option Value) : P Node (openLoop id extent) w := by
  refine hP.andThen (hP.onContext hcurrent _) fun loop w₁ _ => ?_
  exact hP.andThen (hP.logScope _ _ _) fun _ w₂ _ => hP.pure _ _

theorem closeLoop : P Unit (closeLoop id) w :=
  hP.andThen (hP.onContext hcurrent _) fun _ _ _ => hP.logScope _ _ _

theorem recordStep (origin : StepDefinition) (tag : Coordinate) (requested : Option StepId)
    (inputs : List Handle) : P Node (recordStep id origin tag requested inputs) w := by
  refine hP.andThen (hP.onContext hcurrent _) fun step w₁ _ => ?_
  exact hP.andThen (hP.logScope _ _ _) fun _ w₂ _ => hP.pure _ _

theorem closeKernel : P Node (closeKernel id) w := by
  refine hP.andThen (hP.onContext hcurrent _) ?_
  rintro ⟨kernel, grid⟩ w₁ h₁
  refine hP.andThen (hP.logScope _ _ _) fun _ w₂ h₂ => ?_
  refine hP.andThen (hP.logScope _ _ _) fun _ w₃ h₃ => ?_
  have hsame := thread_eq_of_setting ((h₃.trans h₂).trans h₁)
  refine hP.andThen (hP.context (hsame ▸ hcurrent)) fun c w₄ _ => ?_
  dsimp only
  split
  · exact hP.andThen (hP.dumpClosed _ _ _) fun _ w₅ _ => hP.pure _ _
  · exact hP.pure _ _

/-- An operation on the innermost active context. -/
theorem act (operation : Operation) : P Unit (operation.act id) w := by
  cases operation with
  | openKernel name template extent =>
      exact hP.andThen (hP.openKernel hcurrent name template extent) fun _ _ _ => hP.pure _ _
  | openLoop extent =>
      exact hP.andThen (hP.openLoop hcurrent extent) fun _ _ _ => hP.pure _ _
  | closeLoop => exact hP.andThen (hP.closeLoop hcurrent) fun _ _ _ => hP.pure _ _
  | recordStep origin tag requested inputs =>
      exact hP.andThen (hP.recordStep hcurrent origin tag requested inputs) fun _ _ _ =>
        hP.pure _ _
  | closeKernel => exact hP.andThen (hP.closeKernel hcurrent) fun _ _ _ => hP.pure _ _
  | addKernelInput handle =>
      exact hP.onContext hcurrent fun c thread => c.addKernelInput thread handle
  | addKernelOutput handle =>
      exact hP.onContext hcurrent fun c thread => c.addKernelOutput thread handle
  | setVisualize node visualize =>
      exact hP.onContext hcurrent fun c thread => c.setVisualize thread node visualize
  | register node =>
      exact hP.andThen (hP.onContext hcurrent fun c thread => c.register thread node)
        fun _ _ _ => hP.pure _ _

theorem openLaunch (launch : Launch) : P Value (FrontEnd.openLaunch id launch) w := by
  have hstays {w' : World} (h : w'.setting = w.setting) : w'.thread.current = some id :=
    thread_eq_of_setting h ▸ hcurrent
  refine hP.andThen (hP.openKernel hcurrent _ _ _) ?_
  rintro ⟨kernel, grid⟩ w₁ h₁
  have hinputs : P Unit (launch.inputs.forM (addKernelInput id)) w₁ :=
    hP.forM fun handle w' h' => hP.onContext (hstays (h'.trans h₁)) _
  refine hP.andThen hinputs fun _ w₂ h₂ => ?_
  have houtputs : P Unit (launch.outputs.forM (addKernelOutput id)) w₂ :=
    hP.forM fun handle w' h' => hP.onContext (hstays ((h'.trans h₂).trans h₁)) _
  exact hP.andThen houtputs fun _ w₃ _ => hP.ofExcept _ _

end Operations

/-! ### Launches, loops, and steps -/

/-- What comes before the function of a step. -/
theorem beforeStep (d : StepDefinition) (args : List Argument) (w : World) :
    P Unit (FrontEnd.beforeStep d args) w := by
  refine hP.andThen (hP.ofExcept _ _) fun _ w₁ _ => ?_
  refine hP.bind (hP.target w₁) fun found w₂ hfound => ?_
  obtain ⟨rfl, rfl⟩ := target?_ok.1 hfound
  cases htarget : w₂.target? with
  | none => exact hP.pure () w₂
  | some id =>
      refine hP.andThen (hP.ofExcept _ _) fun tag w₃ h₃ => ?_
      have hcurrent : w₃.thread.current = some id :=
        current_of_target? ((target?_eq_of_setting h₃).trans htarget)
      exact hP.andThen (hP.recordStep hcurrent _ _ _ _) fun _ _ _ => hP.pure _ _

theorem countFrom (hbody : ∀ v w, P Unit (body v) w) (start count : Nat) (w : World) :
    P Unit (FrontEnd.countFrom body start count) w := by
  induction count generalizing start w with
  | zero => exact hP.pure () w
  | succ count ih => exact hP.andThen (hbody _ w) fun _ w' _ => ih (start + 1) w'

/-- A body that runs for every index. -/
theorem runConcrete (hbody : ∀ v w, P Unit (body v) w) (what : String) (extent : Value)
    (w : World) : P Unit (FrontEnd.runConcrete what extent body) w := by
  cases extent with
  | concrete word => exact hP.countFrom hbody 0 _ w
  | _ => exact hP.throw _ w

/-- A launch has the property when its body does. -/
theorem launchKernel (hbody : ∀ v w, P Unit (body v) w) (w : World) :
    P Unit (FrontEnd.launchKernel launch body) w := by
  refine hP.bind (hP.target w) fun found w' hfound => ?_
  obtain ⟨rfl, rfl⟩ := target?_ok.1 hfound
  cases htarget : w'.target? with
  | none => exact hP.runConcrete hbody _ _ w'
  | some id =>
      have hcurrent := current_of_target? htarget
      refine hP.andThen (hP.openLaunch hcurrent launch) fun block w₁ h₁ => ?_
      refine hP.andThen (hbody block w₁) fun _ w₂ h₂ => ?_
      have hsame := thread_eq_of_setting (h₂.trans h₁)
      exact hP.andThen (hP.closeKernel (hsame ▸ hcurrent)) fun _ _ _ => hP.pure _ _

/-- A loop has the property when its body does. -/
theorem tileLoop (hbody : ∀ v w, P Unit (body v) w) (w : World) :
    P Unit (FrontEnd.tileLoop extent body) w := by
  refine hP.bind (hP.target w) fun found w' hfound => ?_
  obtain ⟨rfl, rfl⟩ := target?_ok.1 hfound
  cases htarget : w'.target? with
  | none => exact hP.runConcrete hbody _ _ w'
  | some id =>
      have hcurrent := current_of_target? htarget
      refine hP.andThen (hP.openLoop hcurrent _) fun loop w₁ h₁ => ?_
      refine hP.andThen (hP.ofExcept _ _) fun index w₂ h₂ => ?_
      refine hP.andThen (hbody index w₂) fun _ w₃ h₃ => ?_
      have hsame := thread_eq_of_setting ((h₃.trans h₂).trans h₁)
      exact hP.closeLoop (hsame ▸ hcurrent)

end Parts

end Modular

end Trace

/-! ## Programs -/

/-- A guard is made around a computation that keeps the setting. -/
theorem GuardScope.runOn_around_eq (guard : GuardScope) {x : Trace Unit}
    (hx : ∀ w : World, (x.runOn w).2.setting = w.setting) (w : World) :
    (guard.around x).runOn w =
      match guard.inside w.thread with
      | none => (.error .guardWithoutContext, w)
      | some thread =>
          ((x.runOn { w with thread := thread }).1,
            { (x.runOn { w with thread := thread }).2 with thread := w.thread }) := by
  cases hinside : guard.inside w.thread with
  | none => exact runOn_around_missing hinside
  | some thread => exact runOn_around hinside rfl (World.thread_eq_of_setting (hx _))

/-- Every guard of the program is one of the given guards, and every look at the world goes on like
one of the given looks. -/
def GuardedProgram.Obeys (guards : GuardScope → Prop)
    (looks : (World → GuardedProgram) → Prop) : GuardedProgram → Prop
  | done => True
  | fail _ => True
  | look next => looks next ∧ ∀ w, (next w).Obeys guards looks
  | guarded guard body rest =>
      guards guard ∧ body.Obeys guards looks ∧ rest.Obeys guards looks
  | launch _ body rest => (∀ v, (body v).Obeys guards looks) ∧ rest.Obeys guards looks
  | loop _ body rest => (∀ v, (body v).Obeys guards looks) ∧ rest.Obeys guards looks
  | call _ _ rest => rest.Obeys guards looks

/-- All step functions obey. -/
def Bodies.Obey (bodies : Bodies) (guards : GuardScope → Prop)
    (looks : (World → GuardedProgram) → Prop) : Prop :=
  ∀ function args, (bodies function args).Obeys guards looks

namespace Trace.Modular

variable {P : (α : Type) → Trace α → World → Prop} {guards : GuardScope → Prop}
  {looks : (World → GuardedProgram) → Prop}

/-- A property that holds inside guards and after looks holds of programs, when it holds of
invocations of steps. -/
theorem program (hP : Modular P)
    (hguards : ∀ guard x w, guards guard → (∀ w', P Unit x w') → P Unit (guard.around x) w)
    (hlooks : ∀ invoke next w, looks next → P Unit ((next w).run invoke) w →
      P Unit ((GuardedProgram.look next).run invoke) w)
    {invoke : StepDefinition → List Argument → Trace Unit}
    (hinvoke : ∀ step args w, P Unit (invoke step args) w) {p : GuardedProgram}
    (hp : p.Obeys guards looks) (w : World) : P Unit (p.run invoke) w := by
  induction p generalizing w with
  | done => exact hP.pure () w
  | fail error => exact hP.throw error w
  | look next ih => exact hlooks invoke next w hp.1 (ih w (hp.2 w) w)
  | guarded guard body rest ihbody ihrest =>
      exact hP.andThen (hguards guard _ w hp.1 (ihbody hp.2.1)) fun _ w' _ => ihrest hp.2.2 w'
  | launch kernel body rest ihbody ihrest =>
      exact hP.andThen (hP.launchKernel (fun v w => ihbody v (hp.1 v) w) w) fun _ w' _ =>
        ihrest hp.2 w'
  | loop extent body rest ihbody ihrest =>
      exact hP.andThen (hP.tileLoop (fun v w => ihbody v (hp.1 v) w) w) fun _ w' _ =>
        ihrest hp.2 w'
  | call step args rest ih => exact hP.andThen (hinvoke step args w) fun _ w' _ => ih hp w'

/-- The property holds of programs however their steps nest. -/
theorem run (hP : Modular P)
    (hguards : ∀ guard x w, guards guard → (∀ w', P Unit x w') → P Unit (guard.around x) w)
    (hlooks : ∀ invoke next w, looks next → P Unit ((next w).run invoke) w →
      P Unit ((GuardedProgram.look next).run invoke) w)
    {bodies : Bodies} (hbodies : bodies.Obey guards looks) (depth : Nat) {p : GuardedProgram}
    (hp : p.Obeys guards looks) (w : World) : P Unit (bodies.run depth p) w := by
  have hinvoke (step : StepDefinition) (args : List Argument) (w : World) :
      P Unit (bodies.invoke depth step args) w := by
    induction depth generalizing step args w with
    | zero => exact hP.throw .tooDeep w
    | succ depth ih =>
        exact hP.andThen (hP.beforeStep step args w) fun _ w' _ =>
          hP.program hguards hlooks ih (hbodies step.function args) w'
  exact hP.program hguards hlooks hinvoke hp w

end Trace.Modular

end TileTrace
