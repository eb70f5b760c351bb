import TileTrace.Proofs.ClosedKernels

/-!
# Frozen kernels

What may happen to a context in a world: any thread may carry out operations on
it and on other contexts, and all else leaves it as it is. `World.Leads` says
which worlds come later. `Leads.frozen` says that closed kernels are the same in
all of them, and `history_frozen`, the main theorem, adds when a node is shown or
hidden, and what changes then.
-/

namespace TileTrace

namespace World

variable {w : World} {id other : ContextId}

/-- A context stays when another one is put into the world. -/
theorem context?_put_ne (w : World) (hne : other ≠ id) (changed : Context) :
    (w.put other changed).context? id = w.context? id := by
  simp [context?, put, Array.getElem?_setIfInBounds_ne hne]

/-- The worlds that come later, seen from one context: operations are carried out on this or other
contexts, by whichever thread is running, and what else happens leaves the context as it is. -/
inductive Leads (id : ContextId) (w : World) : World → Prop where
  | refl : Leads id w w
  | operation (w' : World) (other : ContextId) (operation : Operation) :
      Leads id w w' → Leads id w ((operation.act other).runOn w').2
  | elsewhere (w' w'' : World) :
      Leads id w w' → w''.context? id = w'.context? id → Leads id w w''

end World

namespace Trace

/-- There is no operation on a context that is not there. -/
theorem runOn_onContext_missing {α : Type} {w : World} {id : ContextId} (h : w.context? id = none)
    (operation : Context → ThreadId → Context.Attempt α) :
    (onContext id operation).runOn w = (.error (.unknownName "context"), w) := by
  have hcontext : (context id).runOn w = (.error (.unknownName "context"), w) := by
    rw [context, runOn_bind]
    simp only [runOn_get, h]
    rfl
  rw [onContext, runOn_bind, hcontext]

end Trace

namespace Operation

open Context Trace World

variable {w w' : World} {id other : ContextId} {c : Context} {k : NodeId}

/-- Without the context an operation changes nothing. -/
theorem act_missing (h : w.context? id = none) (operation : Operation) :
    ((operation.act id).runOn w).2 = w := by
  cases operation with
  | openKernel name template extent =>
      rw [act, Trace.openKernel, runOn_bind, runOn_bind, runOn_onContext_missing h]
  | openLoop extent => rw [act, Trace.openLoop, runOn_bind, runOn_bind, runOn_onContext_missing h]
  | closeLoop => rw [act, Trace.closeLoop, runOn_bind, runOn_bind, runOn_onContext_missing h]
  | recordStep origin tag requested inputs =>
      rw [act, Trace.recordStep, runOn_bind, runOn_bind, runOn_onContext_missing h]
  | closeKernel => rw [act, Trace.closeKernel, runOn_bind, runOn_bind, runOn_onContext_missing h]
  | addKernelInput handle => rw [act, Trace.addKernelInput, runOn_onContext_missing h]
  | addKernelOutput handle => rw [act, Trace.addKernelOutput, runOn_onContext_missing h]
  | setVisualize node visualize => rw [act, Trace.setVisualize, runOn_onContext_missing h]
  | register node => rw [act, Trace.register, runOn_bind, runOn_onContext_missing h]

/-- An operation on another context leaves the context as it is. -/
theorem act_elsewhere (hne : other ≠ id) (operation : Operation) :
    ((operation.act other).runOn w).2.context? id = w.context? id := by
  cases hother : w.context? other with
  | none => rw [act_missing hother]
  | some c =>
      cases act_attempts hother operation with
      | refused e changed hattempt hrun => rw [hrun, context?_put_ne w hne]
      | returns b changed a w' hattempt hrun halike =>
          rw [hrun, halike.context?, context?_put_ne w hne]
      | fails b changed e w' hattempt hrun halike he =>
          rw [hrun, halike.context?, context?_put_ne w hne]

/-- An operation, whether it succeeds or not, keeps closed kernels closed and with the same
nodes. -/
theorem perform_sameBelow (h : c.IsArranged) (hclosed : c.IsClosed k) (operation : Operation)
    (thread : ThreadId) :
    (operation.perform thread c).2.IsArranged ∧ (operation.perform thread c).2.IsClosed k ∧
      SameBelow k c (operation.perform thread c).2 := by
  have hclaimed : (c.claimedBy thread).IsArranged := h
  have hclosed' : (c.claimedBy thread).IsClosed k := ⟨hclosed.isKernel, hclosed.notOpen⟩
  refine perform_cases
    (P := fun attempt => attempt.2.IsArranged ∧ attempt.2.IsClosed k ∧ SameBelow k c attempt.2)
    ?_ ?_ ?_
  · intro changed hstep
    obtain ⟨hstays, hsame⟩ := hstep.sameBelow hclaimed hclosed'
    exact ⟨(hstep.arranged hclaimed).1, hstays, hsame⟩
  · exact fun _ => ⟨h, hclosed, .refl k c⟩
  · exact fun _ => ⟨hclaimed, hclosed', .refl k c⟩

end Operation

namespace World.Leads

open Context

variable {w w' : World} {id : ContextId} {c : Context} {k : NodeId}

/-- A closed kernel has the same nodes in all later worlds. -/
theorem frozen (hlater : w.Leads id w') (hw : w.context? id = some c) (h : c.IsArranged)
    (hclosed : c.IsClosed k) :
    ∃ d, w'.context? id = some d ∧ d.IsArranged ∧ d.IsClosed k ∧ SameBelow k c d := by
  induction hlater with
  | refl => exact ⟨c, hw, h, hclosed, .refl k c⟩
  | operation w' other operation _ ih =>
      obtain ⟨d, hd, harranged, hclosed', hsame⟩ := ih
      by_cases hother : other = id
      · subst hother
        obtain ⟨harranged', hclosed'', hsame'⟩ :=
          operation.perform_sameBelow harranged hclosed' w'.thread.id
        exact ⟨_, (operation.act_context? hd).1, harranged', hclosed'', hsame.trans hsame'⟩
      · exact ⟨d, (operation.act_elsewhere hother).trans hd, harranged, hclosed', hsame⟩
  | elsewhere w' w'' _ hcontext ih =>
      rw [hcontext]
      exact ih

end World.Leads

/-! ## Showing and hiding nodes -/

namespace Context

variable {c d : Context} {thread : ThreadId} {ref : NodeRef} {visualize : Bool}

/-- The node with the given number lies in the tree of the open kernel. -/
def HoldsOpen (c : Context) (j : NodeId) : Prop :=
  ∃ (scope : Scope) (t : Tree), c.scope = some scope ∧ c.tree? scope.kernel = some t ∧
    ∃ n ∈ t.toList, n.id = j

/-- The nodes that are found below the open kernel are those in its tree. -/
theorem IsArranged.inOpenKernel_iff_holdsOpen (h : c.IsArranged) :
    c.inOpenKernel ref = true ↔ ref.home = c.id ∧ c.HoldsOpen ref.node.id := by
  rw [inOpenKernel_iff]
  constructor
  · rintro ⟨scope, n, hscope, hn, hhome, hroot⟩
    obtain ⟨kernel, hk, hkernel⟩ := h.exists_openKernel hscope
    obtain ⟨t, ht, -, -⟩ := h.isRecord hk
    have hbelow := (h.rootOf_eq_iff hn hk hkernel).1 hroot
    exact ⟨hhome, scope, t, hscope, ht, n, (h.mem_toList_iff ht).2 ⟨_, hn, hbelow⟩, h.id_eq hn⟩
  · rintro ⟨hhome, scope, t, hscope, ht, n, hmem, hid⟩
    obtain ⟨kernel, hk, hkernel⟩ := h.exists_openKernel hscope
    obtain ⟨j, hn, hbelow⟩ := (h.mem_toList_iff ht).1 hmem
    rw [← hid, h.id_eq hn]
    exact ⟨scope, n, hscope, hn, hhome, (h.rootOf_eq_iff hn hk hkernel).2 hbelow⟩

/-- A node is shown or hidden for a thread that may change the context, if it is a node of the open
kernel. -/
theorem setVisualize_eq_ok :
    c.setVisualize thread (some ref) visualize = (.ok (), d) ↔
      c.Accepts thread ∧ c.inOpenKernel ref = true ∧
      d = (c.claimedBy thread).modifyNode ref.node.id
        fun n => { n with visualize := visualize } := by
  have hopen : (c.claimedBy thread).inOpenKernel ref = c.inOpenKernel ref := rfl
  rw [setVisualize, claimed_eq, hopen]
  split
  · next haccepts =>
      have haccepts : c.Accepts thread := haccepts
      cases c.inOpenKernel ref with
      | true => simp [haccepts, eq_comm]
      | false => simp
  · next hforeign =>
      have hforeign : ¬c.Accepts thread := hforeign
      simp [hforeign]

/-- A context keeps its number. -/
theorem id_after (id : ContextId) (history : History) : ((fresh id).after history).id = id := by
  refine after_induction (P := fun c => c.id = id) history rfl (fun c thread h => h) ?_
  intro c operation changed h hstep
  cases hstep <;> exact h

/-- A context in which a kernel is open has an owner. -/
def IsOwned (c : Context) : Prop :=
  c.owner = none → c.scope = none

/-- A context is owned after every history. -/
theorem isOwned_after (id : ContextId) (history : History) :
    ((fresh id).after history).IsOwned := by
  have hafter {c : Context} (h : c.IsOwned) : (c.after history).IsOwned := by
    induction history generalizing c with
    | nil => exact h
    | cons head history ih =>
        obtain ⟨thread, operation⟩ := head
        rw [after_cons]
        refine ih (Operation.perform_cases (P := fun attempt => attempt.2.IsOwned) ?_ ?_ ?_)
        · intro changed hstep hnone
          cases hnone.symm.trans hstep.owner
        · exact fun _ => h
        · intro e hnone
          cases hnone
  exact hafter fun _ => rfl

/-- The owner of a context with an open kernel takes over nothing. -/
theorem IsOwned.claimedBy_eq (h : c.IsOwned) (haccepts : c.Accepts thread) {j : NodeId}
    (hholds : c.HoldsOpen j) : c.claimedBy thread = c := by
  obtain ⟨scope, -, hscope, -⟩ := hholds
  have howner : c.owner = some thread := by
    refine haccepts.resolve_left fun hnone => ?_
    cases hscope.symm.trans (h hnone)
  rw [claimedBy, ← howner]

/-- A node is shown or hidden exactly if the running thread may change the context and the node lies
in the tree of its open kernel, and then nothing else changes. -/
theorem act_setVisualize (h : c.IsArranged) (howned : c.IsOwned) {w w' : World} {id : ContextId}
    (hw : w.context? id = some c) :
    ((Operation.setVisualize (some ref) visualize).act id).runOn w = (.ok (), w') ↔
      c.Accepts w.thread.id ∧ ref.home = c.id ∧ c.HoldsOpen ref.node.id ∧
      w' = w.put id (c.modifyNode ref.node.id fun n => { n with visualize := visualize }) := by
  have hin : c.inOpenKernel ref = true ↔ _ := h.inOpenKernel_iff_holdsOpen
  rw [Operation.act, Trace.setVisualize, Trace.runOn_onContext hw, Prod.mk.injEq]
  constructor
  · rintro ⟨hok, rfl⟩
    obtain ⟨haccepts, hinOpen, hd⟩ := setVisualize_eq_ok.1 (Prod.ext_iff.2 ⟨hok, rfl⟩)
    obtain ⟨hhome, hholds⟩ := hin.1 hinOpen
    rw [howned.claimedBy_eq haccepts hholds] at hd
    exact ⟨haccepts, hhome, hholds, congrArg (w.put id) hd⟩
  · rintro ⟨haccepts, hhome, hholds, rfl⟩
    have hok : c.setVisualize w.thread.id (some ref) visualize = _ :=
      setVisualize_eq_ok.2 ⟨haccepts, hin.2 ⟨hhome, hholds⟩, rfl⟩
    rw [howned.claimedBy_eq haccepts hholds] at hok
    exact ⟨congrArg Prod.fst hok, congrArg (fun attempt => w.put id attempt.2) hok⟩

/-- What can be seen of a kernel: its lines, its nodes, its diagram, and the diagram as text. -/
def shown (c : Context) (k : NodeId) : Option (List String × List Node × Diagram × String) :=
  (c.tree? k).map fun t => (t.lines, t.toList, Diagram.flatten t, (Diagram.flatten t).dot)

/-- Closed kernels are frozen. The tree of a kernel that is closed is the same in all later worlds,
with all its nodes, and what is read off it. A node is shown or hidden exactly if the running thread
may change the context and the node lies in the tree of its open kernel, and then nothing else
changes. -/
theorem history_frozen (id : ContextId) (history : History) (w : World)
    (hw : w.context? id = some ((fresh id).after history)) :
    let c := (fresh id).after history
    (∀ k ∈ c.kernels, (∀ scope, c.scope = some scope → scope.kernel ≠ k) →
      ∀ w', w.Leads id w' → ∃ d t, w'.context? id = some d ∧ c.tree? k = some t ∧
        d.tree? k = some t ∧ d.shown k = c.shown k ∧
        ∀ n ∈ t.toList, d.node? n.id = some n ∧ d.children n.id = c.children n.id) ∧
    ∀ (ref : NodeRef) (visualize : Bool) (w' : World),
      ((Operation.setVisualize (some ref) visualize).act id).runOn w = (.ok (), w') ↔
        c.Accepts w.thread.id ∧ ref.home = id ∧ c.HoldsOpen ref.node.id ∧
        w' = w.put id (c.modifyNode ref.node.id fun n => { n with visualize := visualize }) := by
  intro c
  have h : c.IsArranged := isArranged_after id history
  refine ⟨?_, ?_⟩
  · intro k hk hopen w' hlater
    obtain ⟨kernel, hkernel, hisKernel⟩ := h.mem_kernels.1 hk
    obtain ⟨d, hd, harranged, -, hsame⟩ := hlater.frozen hw h ⟨⟨kernel, hkernel, hisKernel⟩, hopen⟩
    obtain ⟨t, ht, -, -⟩ := h.isRecord hkernel
    have hself : k ∈ c.lineage kernel :=
      (h.rootOf_eq_iff hkernel hkernel hisKernel).1
        (h.rootOf_root hkernel ((h.kernel_iff hkernel).1 hisKernel))
    have htree : c.tree? k = d.tree? k := hsame.tree? h harranged hkernel hself
    refine ⟨d, t, hd, ht, htree ▸ ht, by rw [shown, shown, htree], fun n hn => ?_⟩
    obtain ⟨j, hj, hbelow⟩ := (h.mem_toList_iff ht).1 hn
    rw [h.id_eq hj]
    exact ⟨((hsame j n).1 ⟨hj, hbelow⟩).1, (hsame.children h harranged hj hbelow).symm⟩
  · intro ref visualize w'
    rw [act_setVisualize h (isOwned_after id history) hw, id_after]

/-- A world with a context after the given history, and the given thread running. -/
def worldAfter (history : History) (thread : ThreadId) : World where
  contexts := #[some ((fresh 0).after history)]
  thread := { id := thread }
  disk := default

/-- A kernel that is closed, and another one of the same name that is open. -/
def reopened : History :=
  [(0, .openKernel "copy" .unbound none), (0, .closeKernel), (0, .openKernel "copy" .unbound none)]

/-- The first kernel, as it was when it was opened. -/
def closedCopy : NodeRef :=
  ⟨0, (fresh 0).nextKernel "copy" .unbound⟩

/-- The second kernel. -/
def openCopy : NodeRef :=
  ⟨0, { (fresh 0).nextKernel "copy" .unbound with id := 2 }⟩

/-- The closed kernel cannot be hidden any more, but the open one can. -/
theorem history_frozen_reopened :
    (worldAfter reopened 0).context? 0 = some ((fresh 0).after reopened) ∧
    0 ∈ ((fresh 0).after reopened).kernels ∧
    (∃ w' d t, (worldAfter reopened 0).Leads 0 w' ∧ w'.context? 0 = some d ∧
      ((fresh 0).after reopened).tree? 0 = some t ∧ d.tree? 0 = some t) ∧
    (((Operation.setVisualize (some closedCopy) false).act 0).runOn (worldAfter reopened 0)).1 =
      .error (.notInOpenKernel closedCopy.node.text) ∧
    ∃ w', ((Operation.setVisualize (some openCopy) false).act 0).runOn (worldAfter reopened 0) =
      (.ok (), w') := by
  have h := history_frozen 0 reopened (worldAfter reopened 0) rfl
  have hlater : (worldAfter reopened 0).Leads 0 _ :=
    .operation _ 0 (.setVisualize (some closedCopy) false) .refl
  have hopen : ∀ scope, ((fresh 0).after reopened).scope = some scope → scope.kernel ≠ 0 := by
    rintro _ ⟨⟩
    decide
  obtain ⟨d, t, hd, ht, ht', -, -⟩ := h.1 0 (by decide) hopen _ hlater
  have hshown := (h.2 openCopy false _).2
    ⟨.inr rfl, rfl, ⟨⟨2, 3⟩, _, rfl, rfl, _, List.mem_cons_self, rfl⟩, rfl⟩
  exact ⟨rfl, by decide, ⟨_, d, t, hlater, hd, ht, ht'⟩, rfl, _, hshown⟩

/-- Another thread than the owner cannot hide the open kernel, although it is there. -/
theorem setVisualize_foreign :
    let history : History := [(0, .openKernel "copy" .unbound none)]
    (worldAfter history 1).context? 0 = some ((fresh 0).after history) ∧ closedCopy.home = 0 ∧
      ((fresh 0).after history).HoldsOpen closedCopy.node.id ∧
      (((Operation.setVisualize (some closedCopy) false).act 0).runOn (worldAfter history 1)).1 =
        .error .foreignThread := by
  refine ⟨rfl, rfl, ⟨⟨0, 1⟩, _, rfl, rfl, _, List.mem_cons_self, rfl⟩, rfl⟩

end Context

end TileTrace
