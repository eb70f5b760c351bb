import TileTrace.Proofs.Arranged

/-!
# Refusals

Why is an operation refused? `Operation.Refusal` lists the reasons for each
operation with the error that each gives, beside the foreign thread that any
operation is refused for. `Operation.perform_refusal` says that the list is
complete on an arranged context, and `Operation.perform_eq_error` that a listed
reason is given. The other errors in the operations stand for assumptions that
no history breaks.
-/

namespace TileTrace

namespace Registry

/-- Why a step definition is not bound, and the error for it. -/
inductive Refusal (registry : Registry) (d : StepDefinition) (requested : Option StepId) :
    Error → Prop where
  | functionTaken (i : StepId) (holder : StepDefinition) :
      registry.bindingOf d.function = some (i, holder) → holder ≠ d →
      Refusal registry d requested (.functionTaken d.name holder.text i)
  | boundElsewhere (i wanted : StepId) :
      registry.bindingOf d.function = some (i, d) → requested = some wanted → wanted ≠ i →
      Refusal registry d requested (.boundElsewhere d.name i wanted)
  | negative :
      registry.bindingOf d.function = none → requested.getD registry.next < 0 →
      Refusal registry d requested (.negativeStepId (requested.getD registry.next))
  | taken (holder : StepDefinition) :
      registry.bindingOf d.function = none → 0 ≤ requested.getD registry.next →
      registry.definition? (requested.getD registry.next) = some holder →
      Refusal registry d requested (.stepIdTaken (requested.getD registry.next) holder.text)

variable {registry : Registry} {d : StepDefinition} {requested : Option StepId} {e : Error}

/-- A definition is not bound exactly for a listed reason. -/
theorem bind_eq_error : registry.bind d requested = .error e ↔ registry.Refusal d requested e := by
  constructor
  · intro h
    unfold bind at h
    split at h
    · next i holder hbinding =>
        split at h
        · next hholder =>
            subst hholder
            split at h
            · next wanted =>
                split at h
                · cases h
                · next hwanted => cases h; exact .boundElsewhere i wanted hbinding rfl hwanted
            · cases h
        · next hholder => cases h; exact .functionTaken i holder hbinding hholder
    · next hbinding =>
        dsimp only at h
        split at h
        · next hnegative => cases h; exact .negative hbinding hnegative
        · next hnonneg =>
            split at h
            · next holder htaken =>
                cases h
                exact .taken holder hbinding (Int.not_lt.1 hnonneg) htaken
            · cases h
  · intro h
    cases h with
    | functionTaken i holder hbinding hholder => simp [bind, hbinding, hholder]
    | boundElsewhere i wanted hbinding hrequested hwanted =>
        simp [bind, hbinding, hrequested, hwanted]
    | negative hbinding hnegative => simp [bind, hbinding, hnegative]
    | taken holder hbinding hnonneg htaken =>
        simp [bind, hbinding, Int.not_lt.2 hnonneg, htaken]

/-- No definition is refused for a diagram file. -/
theorem Refusal.ne_diagramFile (h : registry.Refusal d requested e) (path : String) :
    e ≠ .diagramFile path := by
  cases h <;> exact nofun

end Registry

namespace Context.IsArranged

variable {c : Context} {scope : Scope}

/-- The kernel of the scope is there. -/
theorem exists_kernel (h : c.IsArranged) (hscope : c.scope = some scope) :
    ∃ kernel, c.node? scope.kernel = some kernel := by
  obtain ⟨⟨f, hf, -⟩, -, -, -⟩ := Arranged.scope h scope hscope
  obtain ⟨kernel, hkernel, -⟩ := places_eq_some.1 hf
  exact ⟨kernel, hkernel⟩

/-- A current loop that is no grid loop has a parent. -/
theorem exists_parent (h : c.IsArranged) {loop : Node} (hloop : c.currentLoop? = some loop)
    (hgrid : ¬loop.isGridLoop = true) : ∃ outer, loop.parent = some outer := by
  obtain ⟨scope, hscope, hnode⟩ := currentLoop?_eq_some.1 hloop
  have hplace : c.places[scope.loop]? = some loop.place := places_eq_some.2 ⟨loop, hnode, rfl⟩
  obtain ⟨-, ⟨f, hf, hisLoop⟩, -, -⟩ := Arranged.scope h scope hscope
  obtain rfl : loop.place = f := Option.some.inj (hplace.symm.trans hf)
  have hnested : loop.kind = .nested :=
    hisLoop.resolve_left fun hkind => hgrid (Node.isGridLoop_iff.2 hkind)
  obtain ⟨outer, -, hparent, -⟩ := (Arranged.fits h hplace).of_inner (.inl hnested)
  exact ⟨outer, hparent⟩

end Context.IsArranged

namespace Context

/-- A thread may change a context that has no owner, or that it owns. -/
def Accepts (c : Context) (thread : ThreadId) : Prop :=
  c.owner = none ∨ c.owner = some thread

/-- For a thread that may change the context, an operation answers as on the context that the
thread has taken over. -/
theorem claimed_fst {α : Type} {c : Context} {thread : ThreadId} (haccepts : c.Accepts thread)
    (operation : Context → Except Error (α × Context)) :
    (c.claimed thread operation).1 = (operation (c.claimedBy thread)).map Prod.fst := by
  rw [claimed_eq]
  split
  · cases operation (c.claimedBy thread) <;> rfl
  · next hforeign => exact absurd haccepts hforeign

/-- A refused operation was issued by a thread that may not change the context, or refused by the
context as the thread takes it over. -/
theorem claimed_refusal {α : Type} {c changed : Context} {thread : ThreadId} {e : Error}
    {operation : Context → Except Error (α × Context)}
    (h : c.claimed thread operation = (.error e, changed)) :
    e = .foreignThread ∧ ¬c.Accepts thread ∨ operation (c.claimedBy thread) = .error e := by
  rw [claimed_eq] at h
  split at h
  · split at h
    · cases h
    · next hrefused => cases h; exact .inr hrefused
  · next hforeign => cases h; exact .inl ⟨rfl, hforeign⟩

end Context

namespace Operation

open Context

/-- Why an operation is refused by a context that its thread has taken over, and the error for
it. -/
inductive Refusal (c : Context) : Operation → Error → Prop where
  | openKernel (name : String) (template : Coordinate) (extent : Option Value) (scope : Scope) :
      c.scope = some scope →
      Refusal c (.openKernel name template extent)
        (.kernelInsideKernel (c.kernelName scope.kernel) name)
  | openLoop (extent : Option Value) :
      c.scope = none → Refusal c (.openLoop extent) .loopOutsideKernel
  | closeLoop : c.scope = none → Refusal c .closeLoop .noLoopToClose
  | closeGridLoop (scope : Scope) (loop : Node) :
      c.scope = some scope → c.currentLoop? = some loop → loop.isGridLoop = true →
      Refusal c .closeLoop (.closeLoopOnGrid (c.kernelName scope.kernel))
  | recordStep (origin : StepDefinition) (tag : Coordinate) (requested : Option StepId)
      (inputs : List Handle) :
      c.scope = none →
      Refusal c (.recordStep origin tag requested inputs) (.stepOutsideKernel origin.name)
  | bindStep (origin : StepDefinition) (tag : Coordinate) (requested : Option StepId)
      (inputs : List Handle) (scope : Scope) (e : Error) :
      c.scope = some scope → c.registry.Refusal origin requested e →
      Refusal c (.recordStep origin tag requested inputs) e
  | closeKernel : c.scope = none → Refusal c .closeKernel .noKernelToClose
  | closeKernelInLoop (scope : Scope) (loop : Node) :
      c.scope = some scope → c.currentLoop? = some loop → scope.loop ≠ gridOf scope.kernel →
      Refusal c .closeKernel (.closeKernelInLoop (c.kernelName scope.kernel) loop.text)
  | addKernelInput (handle : Handle) :
      c.scope = none → Refusal c (.addKernelInput handle) (.noKernelForInput handle)
  | addKernelOutput (handle : Handle) :
      c.scope = none → Refusal c (.addKernelOutput handle) (.noKernelForOutput handle)
  | modifyNull (visualize : Bool) : Refusal c (.setVisualize none visualize) .nullModified
  | setVisualize (ref : NodeRef) (visualize : Bool) :
      c.inOpenKernel ref = false →
      Refusal c (.setVisualize (some ref) visualize) (.notInOpenKernel ref.node.text)
  | registerNull : Refusal c (.register none) .nullRegistered
  | register (ref : NodeRef) :
      Refusal c (.register (some ref)) (.alreadyRegistered ref.node.text)

/-- No operation is refused for a diagram file. -/
theorem Refusal.ne_diagramFile {c : Context} {operation : Operation} {e : Error}
    (h : Refusal c operation e) (path : String) : e ≠ .diagramFile path := by
  cases h with
  | bindStep origin tag requested inputs scope e hscope hbind => exact hbind.ne_diagramFile path
  | _ => exact nofun

variable {c changed : Context} {thread : ThreadId} {e : Error}

theorem openKernel_refusal {name : String} {template : Coordinate} {extent : Option Value}
    (h : c.openKernel thread name template extent = (.error e, changed)) :
    e = .foreignThread ∧ ¬c.Accepts thread ∨
      Refusal (c.claimedBy thread) (.openKernel name template extent) e := by
  refine (claimed_refusal h).imp_right fun hrefused => ?_
  split at hrefused
  · next scope hscope => cases hrefused; exact .openKernel name template extent scope hscope
  · cases hrefused

theorem openLoop_refusal (hc : c.IsArranged) {extent : Option Value}
    (h : c.openLoop thread extent = (.error e, changed)) :
    e = .foreignThread ∧ ¬c.Accepts thread ∨ Refusal (c.claimedBy thread) (.openLoop extent) e := by
  have hd : (c.claimedBy thread).IsArranged := hc
  refine (claimed_refusal h).imp_right fun hrefused => ?_
  split at hrefused
  · next hscope => cases hrefused; exact .openLoop extent hscope
  · next scope hscope =>
      obtain ⟨outer, hloop⟩ := hd.exists_currentLoop hscope
      simp only [currentTag, hloop, append] at hrefused
      cases hrefused

theorem closeLoop_refusal (hc : c.IsArranged)
    (h : c.closeLoop thread = (.error e, changed)) :
    e = .foreignThread ∧ ¬c.Accepts thread ∨ Refusal (c.claimedBy thread) .closeLoop e := by
  have hd : (c.claimedBy thread).IsArranged := hc
  refine (claimed_refusal h).imp_right fun hrefused => ?_
  cases hscope : (c.claimedBy thread).scope with
  | none =>
      rw [hscope] at hrefused
      cases hrefused
      exact .closeLoop hscope
  | some scope =>
      obtain ⟨loop, hloop⟩ := hd.exists_currentLoop hscope
      rw [hscope, hloop] at hrefused
      dsimp only at hrefused
      split at hrefused
      · next hgrid => cases hrefused; exact .closeGridLoop scope loop hscope hloop hgrid
      · next hgrid =>
          obtain ⟨outer, hparent⟩ := hd.exists_parent hloop hgrid
          rw [hparent] at hrefused
          cases hrefused

theorem recordStep_refusal (hc : c.IsArranged) {origin : StepDefinition} {tag : Coordinate}
    {requested : Option StepId} {inputs : List Handle}
    (h : c.recordStep thread origin tag requested inputs = (.error e, changed)) :
    e = .foreignThread ∧ ¬c.Accepts thread ∨
      Refusal (c.claimedBy thread) (.recordStep origin tag requested inputs) e := by
  have hd : (c.claimedBy thread).IsArranged := hc
  refine (claimed_refusal h).imp_right fun hrefused => ?_
  split at hrefused
  · next hscope => cases hrefused; exact .recordStep origin tag requested inputs hscope
  · next scope hscope =>
      obtain ⟨outer, hloop⟩ := hd.exists_currentLoop hscope
      cases hbind : (c.claimedBy thread).registry.bind origin requested with
      | error e' =>
          rw [hbind] at hrefused
          cases hrefused
          have hrefusal := Registry.bind_eq_error.1 hbind
          exact .bindStep origin tag requested inputs scope e hscope hrefusal
      | ok bound =>
          simp only [hbind, append, hloop] at hrefused
          cases hrefused

theorem closeKernel_refusal (hc : c.IsArranged)
    (h : c.closeKernel thread = (.error e, changed)) :
    e = .foreignThread ∧ ¬c.Accepts thread ∨ Refusal (c.claimedBy thread) .closeKernel e := by
  have hd : (c.claimedBy thread).IsArranged := hc
  refine (claimed_refusal h).imp_right fun hrefused => ?_
  cases hscope : (c.claimedBy thread).scope with
  | none =>
      rw [hscope] at hrefused
      cases hrefused
      exact .closeKernel hscope
  | some scope =>
      obtain ⟨loop, hloop⟩ := hd.exists_currentLoop hscope
      obtain ⟨kernel, hkernel⟩ := hd.exists_kernel hscope
      rw [hscope, hloop] at hrefused
      dsimp only at hrefused
      rw [hkernel] at hrefused
      dsimp only at hrefused
      split at hrefused
      · cases hrefused
      · next hgrid => cases hrefused; exact .closeKernelInLoop scope loop hscope hloop hgrid

theorem setVisualize_refusal {node : Option NodeRef} {visualize : Bool}
    (h : c.setVisualize thread node visualize = (.error e, changed)) :
    e = .foreignThread ∧ ¬c.Accepts thread ∨
      Refusal (c.claimedBy thread) (.setVisualize node visualize) e := by
  cases node with
  | none => cases h; exact .inr (.modifyNull visualize)
  | some ref =>
      refine (claimed_refusal h).imp_right fun hrefused => ?_
      split at hrefused
      · cases hrefused
      · next hopen => cases hrefused; exact .setVisualize ref visualize (by simpa using hopen)

theorem register_refusal {node : Option NodeRef}
    (h : c.register thread node = (.error e, changed)) :
    e = .foreignThread ∧ ¬c.Accepts thread ∨ Refusal (c.claimedBy thread) (.register node) e := by
  cases node with
  | none => cases h; exact .inr .registerNull
  | some ref =>
      refine (claimed_refusal h).imp_right fun hrefused => ?_
      cases hrefused
      exact .register ref

/-- A refused operation was issued by a foreign thread, or refused for a listed reason. -/
theorem perform_refusal (hc : c.IsArranged) {operation : Operation}
    (h : operation.perform thread c = (.error e, changed)) :
    e = .foreignThread ∧ ¬c.Accepts thread ∨ Refusal (c.claimedBy thread) operation e := by
  cases operation with
  | openKernel name template extent => exact openKernel_refusal (finished_error h)
  | openLoop extent => exact openLoop_refusal hc (finished_error h)
  | closeLoop => exact closeLoop_refusal hc (finished_error h)
  | recordStep origin tag requested inputs => exact recordStep_refusal hc (finished_error h)
  | closeKernel => exact closeKernel_refusal hc (finished_error h)
  | addKernelInput handle =>
      refine (claimed_refusal h).imp_right fun hrefused => ?_
      split at hrefused
      · cases hrefused
      · next hscope => cases hrefused; exact .addKernelInput handle hscope
  | addKernelOutput handle =>
      refine (claimed_refusal h).imp_right fun hrefused => ?_
      split at hrefused
      · cases hrefused
      · next hscope => cases hrefused; exact .addKernelOutput handle hscope
  | setVisualize node visualize => exact setVisualize_refusal h
  | register node => exact register_refusal (finished_error h)

/-- Every operation that is refused names another reason than a diagram file. -/
theorem perform_ne_diagramFile (hc : c.IsArranged) {operation : Operation}
    (h : operation.perform thread c = (.error e, changed)) (path : String) :
    e ≠ .diagramFile path := by
  obtain ⟨rfl, -⟩ | hrefusal := perform_refusal hc h
  · exact nofun
  · exact hrefusal.ne_diagramFile path

/-- What a `finished` attempt answers. -/
theorem finished_fst {α : Type} (attempt : Context.Attempt α) :
    (perform.finished attempt).1 = attempt.1.map fun _ => () := rfl

/-- A listed reason is the one that is given. -/
theorem Refusal.perform_fst (hc : c.IsArranged) (haccepts : c.Accepts thread)
    {operation : Operation} (h : Refusal (c.claimedBy thread) operation e) :
    (operation.perform thread c).1 = .error e := by
  cases h with
  | openKernel name template extent scope hscope =>
      rw [perform, finished_fst, Context.openKernel, claimed_fst haccepts]
      simp only [hscope, Except.map]
  | openLoop extent hscope =>
      rw [perform, finished_fst, Context.openLoop, claimed_fst haccepts]
      simp only [hscope, Except.map]
  | closeLoop hscope =>
      rw [perform, finished_fst, Context.closeLoop, claimed_fst haccepts]
      simp only [hscope, Except.map]
  | closeGridLoop scope loop hscope hloop hgrid =>
      rw [perform, finished_fst, Context.closeLoop, claimed_fst haccepts]
      simp only [hscope, hloop, if_pos hgrid, Except.map]
  | recordStep origin tag requested inputs hscope =>
      rw [perform, finished_fst, Context.recordStep, claimed_fst haccepts]
      simp only [hscope, Except.map]
  | bindStep origin tag requested inputs scope e hscope hbind =>
      rw [perform, finished_fst, Context.recordStep, claimed_fst haccepts]
      simp only [hscope, Registry.bind_eq_error.2 hbind, bind, Except.bind, Except.map]
  | closeKernel hscope =>
      rw [perform, finished_fst, Context.closeKernel, claimed_fst haccepts]
      simp only [hscope, Except.map]
  | closeKernelInLoop scope loop hscope hloop hgrid =>
      have hd : (c.claimedBy thread).IsArranged := hc
      obtain ⟨kernel, hkernel⟩ := hd.exists_kernel hscope
      rw [perform, finished_fst, Context.closeKernel, claimed_fst haccepts]
      simp only [hscope, hloop, hkernel, if_neg hgrid, Except.map]
  | addKernelInput handle hscope =>
      rw [perform, Context.addKernelInput, claimed_fst haccepts]
      simp only [hscope, Except.map]
  | addKernelOutput handle hscope =>
      rw [perform, Context.addKernelOutput, claimed_fst haccepts]
      simp only [hscope, Except.map]
  | modifyNull visualize => rfl
  | setVisualize ref visualize hopen =>
      rw [perform, Context.setVisualize, claimed_fst haccepts]
      simp only [hopen, Bool.false_eq_true, if_false, Except.map]
  | registerNull => rfl
  | register ref =>
      rw [perform, finished_fst, Context.register, claimed_fst haccepts]
      rfl

/-- An operation of a thread that may change the context is refused exactly for a listed reason. -/
theorem perform_eq_error (hc : c.IsArranged) (haccepts : c.Accepts thread) {operation : Operation} :
    (operation.perform thread c).1 = .error e ↔ Refusal (c.claimedBy thread) operation e := by
  refine ⟨fun h => ?_, fun h => h.perform_fst hc haccepts⟩
  obtain ⟨-, hforeign⟩ | hrefusal := perform_refusal hc (Prod.ext_iff.2 ⟨h, rfl⟩)
  · exact absurd haccepts hforeign
  · exact hrefusal

end Operation

end TileTrace
