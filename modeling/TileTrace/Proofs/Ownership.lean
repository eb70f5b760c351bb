import TileTrace.Proofs.Atomicity

/-!
# Owners

Threads take turns in carrying out operations on a context, and the context takes
changes from one of them only. Read `Operation.exists_claimed` first: all
operations but those on a null node claim the context before they do anything
else, so that the owner after an operation is known whether it succeeds or not
(`Operation.owner_perform`). `Interleaved` is about whole interleavings, and
`Context.IsOwnedBy` is what every turn in them preserves. Threads are known by
their numbers here: `Interleaved.thread_eq` says that all changes come from one
number, and `Interleaved.refused` that other numbers never disturb. The main
theorem, `Interleaved.first_caller`, says which number may change the context: that
of the first thread that asks for a change, even if it does not get it.
-/

namespace TileTrace

namespace World

variable {w : World} {id : ContextId} {c : Context}

/-- Putting a context where it already is changes nothing. -/
theorem put_of_context? (h : w.context? id = some c) : w.put id c = w := by
  have hsome : w.contexts[id]? = some (some c) := Option.join_eq_some_iff.1 h
  have hsame : w.contexts.setIfInBounds id (some c) = w.contexts := by
    refine Array.ext_getElem? fun i => ?_
    by_cases hi : id = i
    · subst hi
      rw [Array.getElem?_setIfInBounds_self_of_lt (lt_size_of_context? h), hsome]
    · rw [Array.getElem?_setIfInBounds_ne hi]
  rw [put, hsame]

end World

namespace Operation

open Context

/-- Whether an operation is about a node that is not there. -/
def onNull : Operation → Bool
  | setVisualize none _ | register none => true
  | _ => false

variable {w : World} {id : ContextId} {c changed : Context} {thread : ThreadId} {e : Error}
  {operation : Operation}

/-- An operation that is not about a null node claims the context before it does anything else. -/
theorem exists_claimed (h : operation.onNull = false) :
    ∃ (α : Type) (change : Context → Except Error (α × Context)), ∀ (thread : ThreadId)
      (c : Context), operation.perform thread c = perform.finished (c.claimed thread change) := by
  cases operation with
  | openKernel | openLoop | closeLoop | recordStep | closeKernel => exact ⟨_, _, fun _ _ => rfl⟩
  | addKernelInput | addKernelOutput => exact ⟨_, _, fun _ _ => (finished_eq _).symm⟩
  | setVisualize node visualize =>
      cases node with
      | none => cases h
      | some ref => exact ⟨_, _, fun _ _ => (finished_eq _).symm⟩
  | register node =>
      cases node with
      | none => cases h
      | some ref => exact ⟨_, _, fun _ _ => rfl⟩

/-- An operation on a null node is refused before the owner is asked for. -/
theorem perform_onNull (h : operation.onNull = true) (thread : ThreadId) (c : Context) :
    ∃ e, operation.perform thread c = (.error e, c) ∧ e ≠ .foreignThread := by
  cases operation with
  | setVisualize node visualize =>
      cases node with
      | none => exact ⟨_, rfl, nofun⟩
      | some ref => cases h
  | register node =>
      cases node with
      | none => exact ⟨_, rfl, nofun⟩
      | some ref => cases h
  | _ => cases h

/-- Another thread than the owner is refused, and the context stays as it is. -/
theorem perform_foreign (h : operation.onNull = false) (hforeign : ¬c.Accepts thread) :
    operation.perform thread c = (.error .foreignThread, c) := by
  obtain ⟨α, change, hclaimed⟩ := exists_claimed h
  rw [hclaimed, finished_claimed]
  exact if_neg hforeign

/-- A thread that may change a context owns it afterwards, whether it has changed it or not. -/
theorem owner_perform_of_accepts (h : operation.onNull = false) (haccepts : c.Accepts thread) :
    (operation.perform thread c).2.owner = some thread := by
  obtain ⟨α, change, hclaimed⟩ := exists_claimed h
  have hsettled : operation.perform thread c =
      (c.claimedBy thread).settled (change (c.claimedBy thread)) :=
    (hclaimed thread c).trans ((finished_claimed c thread change).trans (if_pos haccepts))
  cases hdone : change (c.claimedBy thread) with
  | ok done =>
      have hok : operation.perform thread c = (.ok (), done.2) := by rw [hsettled, hdone]; rfl
      rw [hok]
      exact (perform_ok hok).owner
  | error e =>
      rw [hsettled, hdone]
      rfl

/-- An operation never changes the owner. If there is none, a thread becomes the owner by asking
for a change. -/
theorem owner_perform (operation : Operation) (thread : ThreadId) (c : Context) :
    (operation.perform thread c).2.owner =
      c.owner.or (if operation.onNull then none else some thread) := by
  cases hnull : operation.onNull with
  | true =>
      obtain ⟨e, hperform, -⟩ := perform_onNull hnull thread c
      rw [hperform]
      exact Option.or_none.symm
  | false =>
      by_cases haccepts : c.Accepts thread
      · rw [owner_perform_of_accepts hnull haccepts]
        obtain howner | howner := haccepts <;> rw [howner] <;> rfl
      · rw [perform_foreign hnull haccepts]
        cases howner : c.owner with
        | none => exact absurd (.inl howner) haccepts
        | some owner => rfl

/-- No listed reason for a refusal is a foreign thread. -/
theorem Refusal.ne_foreignThread (h : Refusal c operation e) : e ≠ .foreignThread := by
  cases h with
  | bindStep origin tag requested inputs scope e hscope hbind => cases hbind <;> exact nofun
  | _ => exact nofun

/-- A thread is refused as foreign exactly if it may not change the context. -/
theorem perform_eq_foreign (hc : c.IsArranged) :
    (operation.perform thread c).1 = .error .foreignThread ↔
      operation.onNull = false ∧ ¬c.Accepts thread := by
  constructor
  · intro hrefused
    cases hnull : operation.onNull with
    | true =>
        obtain ⟨e, hperform, hne⟩ := perform_onNull hnull thread c
        rw [hperform, Except.error.injEq] at hrefused
        exact absurd hrefused hne
    | false =>
        obtain ⟨-, hforeign⟩ | hrefusal := perform_refusal hc (Prod.ext_iff.2 ⟨hrefused, rfl⟩)
        · exact ⟨rfl, hforeign⟩
        · exact absurd rfl hrefusal.ne_foreignThread
  · rintro ⟨hnull, hforeign⟩
    rw [perform_foreign hnull hforeign]

/-! ## Operations in a world -/

/-- Another thread than the owner is refused, and nothing in the world changes. -/
theorem act_foreign (h : w.context? id = some c) (hnull : operation.onNull = false)
    (hforeign : ¬c.Accepts w.thread.id) :
    (operation.act id).runOn w = (.error .foreignThread, w) := by
  have hperform := perform_foreign hnull hforeign
  cases act_attempts h operation with
  | refused e changed hattempt hrun =>
      cases hperform.symm.trans hattempt
      rw [hrun, World.put_of_context? h]
  | returns b changed a w' hattempt hrun halike => cases hperform.symm.trans hattempt
  | fails b changed e w' hattempt hrun halike he => cases hperform.symm.trans hattempt

/-- The running thread is refused as foreign exactly if it may not change the context. -/
theorem act_eq_foreign (hc : c.IsArranged) (h : w.context? id = some c) :
    ((operation.act id).runOn w).1 = .error .foreignThread ↔
      operation.onNull = false ∧ ¬c.Accepts w.thread.id := by
  rw [← perform_eq_foreign hc]
  cases act_attempts h operation with
  | refused e changed hattempt hrun => rw [hrun, hattempt]
  | returns b changed a w' hattempt hrun halike => rw [hrun, hattempt]
  | fails b changed e w' hattempt hrun halike he =>
      obtain ⟨-, path, rfl⟩ := he
      rw [hrun, hattempt]
      simp

end Operation

/-! ## Interleavings -/

/-- An operation that a thread has carried out on a context, with its result. -/
structure Turn where
  thread : ThreadId
  operation : Operation
  result : Except Error Unit

/-- The operation has changed the context. A kernel that is closed may still fail to be printed. -/
def Turn.Succeeded (turn : Turn) : Prop :=
  turn.result = .ok () ∨ ∃ path, turn.result = .error (.diagramFile path)

/-- A turn that was refused for any other reason than a missing directory has changed nothing. -/
theorem Turn.not_succeeded {turn : Turn} {e : Error} (h : turn.result = .error e)
    (hdiagram : ∀ path, e ≠ .diagramFile path) : ¬turn.Succeeded := by
  rintro (hresult | ⟨path, hresult⟩) <;> rw [h] at hresult <;> cases hresult
  exact hdiagram path rfl

/-- The turn of the running thread that carries out an operation. -/
def World.turn (w : World) (id : ContextId) (operation : Operation) : Turn :=
  ⟨w.thread.id, operation, ((operation.act id).runOn w).1⟩

/-- The first turn that asks for the owner of the context. -/
def firstCall (turns : List Turn) : Option Turn :=
  turns.find? fun turn => !turn.operation.onNull

theorem firstCall_append (turns : List Turn) (turn : Turn) :
    firstCall (turns ++ [turn]) =
      (firstCall turns).or (if turn.operation.onNull then none else some turn) := by
  cases h : turn.operation.onNull <;> simp [firstCall, h]

/-- The worlds that threads lead to which take turns in operations on a new context, with all their
turns so far. What else happens between the turns leaves the context as it is. -/
inductive Interleaved (id : ContextId) : World → List Turn → Prop where
  | fresh (w : World) : w.context? id = some (Context.fresh id) → Interleaved id w []
  | turn (w : World) (turns : List Turn) (operation : Operation) :
      Interleaved id w turns →
      Interleaved id ((operation.act id).runOn w).2 (turns ++ [w.turn id operation])
  | elsewhere (w w' : World) (turns : List Turn) :
      Interleaved id w turns → w'.context? id = w.context? id → Interleaved id w' turns

/-- The owner of a context is the thread whose turn was the first to ask for the owner, and it is
the only thread that has changed the context. Until then nothing but the owner is different. -/
structure Context.IsOwnedBy (id : ContextId) (c : Context) (turns : List Turn) : Prop where
  owner : c.owner = (firstCall turns).map Turn.thread
  changes : ∀ turn ∈ turns, turn.Succeeded → c.owner = some turn.thread
  untouched : (∀ turn ∈ turns, ¬turn.Succeeded) → c = { Context.fresh id with owner := c.owner }

open Context Operation World

variable {id : ContextId} {w : World} {turns : List Turn} {operation : Operation} {c : Context}

/-- A turn has changed the context exactly if the operation itself has been carried out. -/
theorem World.turn_succeeded (hc : c.IsArranged) (h : w.context? id = some c) :
    (w.turn id operation).Succeeded ↔
      ∃ changed, operation.perform w.thread.id c = (.ok (), changed) := by
  rw [Turn.Succeeded, World.turn]
  cases act_attempts h operation with
  | refused e changed hattempt hrun =>
      have hne := perform_ne_diagramFile hc hattempt
      rw [hrun, hattempt]
      simp [hne]
  | returns b changed a w' hattempt hrun halike => simp [hrun, hattempt]
  | fails b changed e w' hattempt hrun halike he =>
      obtain ⟨-, path, rfl⟩ := he
      simp [hrun, hattempt]

/-- A new context has no owner. -/
theorem Context.isOwnedBy_fresh (id : ContextId) : (Context.fresh id).IsOwnedBy id [] :=
  ⟨rfl, fun _ hturn => absurd hturn List.not_mem_nil, fun _ => rfl⟩

/-- A thread may not change a context exactly if another one was the first to ask for the owner. -/
theorem Context.IsOwnedBy.not_accepts (h : c.IsOwnedBy id turns) (thread : ThreadId) :
    ¬c.Accepts thread ↔ ∃ first, firstCall turns = some first ∧ first.thread ≠ thread := by
  rw [Accepts, h.owner]
  cases firstCall turns <;> simp

/-- Every turn leaves the owner who was first. -/
theorem Context.IsOwnedBy.turn (howned : c.IsOwnedBy id turns) (hc : c.IsArranged)
    (h : w.context? id = some c) (operation : Operation) :
    (operation.perform w.thread.id c).2.IsOwnedBy id (turns ++ [w.turn id operation]) := by
  constructor
  · rw [owner_perform, howned.owner, firstCall_append, Option.map_or]
    cases hnull : operation.onNull <;> simp [World.turn, hnull]
  · intro turn hturn hsucceeded
    obtain hearlier | hlast := List.mem_append.1 hturn
    · rw [owner_perform, howned.changes turn hearlier hsucceeded]
      rfl
    · obtain rfl := List.mem_singleton.1 hlast
      obtain ⟨changed, hperform⟩ := (turn_succeeded hc h).1 hsucceeded
      rw [hperform]
      exact (perform_ok hperform).owner
  · intro hfailed
    have hfresh := howned.untouched fun turn hturn => hfailed turn (List.mem_append_left _ hturn)
    have hlast := hfailed _ (List.mem_append_right turns List.mem_cons_self)
    rw [turn_succeeded hc h] at hlast
    match hperform : operation.perform w.thread.id c with
    | (.ok (), changed) => exact absurd ⟨changed, hperform⟩ hlast
    | (.error e, changed) =>
        obtain rfl | rfl := perform_error hperform
        · exact hfresh
        · rw [hfresh]
          rfl

namespace Interleaved

/-- The context of an interleaving has the owner who was first. -/
theorem exists_isOwnedBy (h : Interleaved id w turns) :
    ∃ c, w.context? id = some c ∧ c.IsArranged ∧ c.IsOwnedBy id turns := by
  induction h with
  | fresh w hfresh => exact ⟨_, hfresh, isArranged_fresh id, isOwnedBy_fresh id⟩
  | turn w turns operation _ ih =>
      obtain ⟨c, hc, harranged, howned⟩ := ih
      have hchanged : (operation.perform w.thread.id c).2.IsArranged :=
        (harranged.after [(w.thread.id, operation)]).1
      exact ⟨_, (operation.act_context? hc).1, hchanged, howned.turn harranged hc operation⟩
  | elsewhere w w' turns _ hcontext ih =>
      rw [hcontext]
      exact ih

/-- All turns that change a context are of threads with one number. -/
theorem thread_eq (h : Interleaved id w turns) {turn other : Turn} (hturn : turn ∈ turns)
    (hother : other ∈ turns) (hsucceeded : turn.Succeeded) (hsucceeded' : other.Succeeded) :
    turn.thread = other.thread := by
  obtain ⟨c, -, -, howned⟩ := h.exists_isOwnedBy
  have howner := howned.changes turn hturn hsucceeded
  rw [howned.changes other hother hsucceeded'] at howner
  exact (Option.some.inj howner).symm

/-- After a turn that has changed the context, a thread is refused for being foreign exactly if it
has another number, unless it asks about a null node. -/
theorem eq_foreign_iff (h : Interleaved id w turns) {turn : Turn} (hturn : turn ∈ turns)
    (hsucceeded : turn.Succeeded) (operation : Operation) :
    ((operation.act id).runOn w).1 = .error .foreignThread ↔
      operation.onNull = false ∧ w.thread.id ≠ turn.thread := by
  obtain ⟨c, hc, harranged, howned⟩ := h.exists_isOwnedBy
  have howner := howned.changes turn hturn hsucceeded
  rw [act_eq_foreign harranged hc, Accepts, howner]
  refine and_congr_right fun _ => not_congr ⟨?_, fun hsame => .inr (congrArg some hsame.symm)⟩
  rintro (hnone | hsame)
  · cases hnone
  · exact (Option.some.inj hsame).symm

/-- A thread that is refused changes nothing at all, so that everything goes on as if it had not
asked. -/
theorem refused (h : Interleaved id w turns)
    (hrefused : ((operation.act id).runOn w).1 = .error .foreignThread) :
    (operation.act id).runOn w = (.error .foreignThread, w) ∧
      ∀ (α : Type) (next : Thread) (rest : Trace α),
        (do
          let _ ← observing (operation.act id)
          Trace.modifyThread fun _ => next
          rest : Trace α).runOn w =
        (do
          Trace.modifyThread fun _ => next
          rest : Trace α).runOn w := by
  obtain ⟨c, hc, harranged, -⟩ := h.exists_isOwnedBy
  obtain ⟨hnull, hforeign⟩ := (act_eq_foreign harranged hc).1 hrefused
  have hrun := act_foreign hc hnull hforeign
  refine ⟨hrun, fun α next rest => ?_⟩
  rw [Trace.runOn_bind, Trace.observing_ok.2 hrun]

/-- Another thread may run on. -/
theorem switch (h : Interleaved id w turns) (next : Thread) :
    Interleaved id { w with thread := next } turns :=
  .elsewhere w _ turns h rfl

end Interleaved

/-- A world with one new context. -/
def World.lone : World where
  contexts := #[some (Context.fresh 0)]
  disk := default

namespace Interleaved

theorem lone : Interleaved 0 World.lone [] := .fresh World.lone rfl

/-- A thread is refused for being foreign exactly if another one was the first to ask for a change,
whether that one got it or not. If none got it, the context is as new but for its owner, so that a
refusal is due to a change by another thread only if some change was made. -/
theorem first_caller (h : Interleaved id w turns) :
    (∀ operation : Operation, ((operation.act id).runOn w).1 = .error .foreignThread ↔
      operation.onNull = false ∧
        ∃ first, firstCall turns = some first ∧ first.thread ≠ w.thread.id) ∧
    ((∀ turn ∈ turns, ¬turn.Succeeded) →
      w.context? id =
        some { Context.fresh id with owner := (firstCall turns).map Turn.thread }) ∧
    ∀ operation : Operation, ((operation.act id).runOn w).1 = .error .foreignThread →
      ((∃ turn ∈ turns, turn.Succeeded ∧ turn.thread ≠ w.thread.id) ↔
        ∃ turn ∈ turns, turn.Succeeded) := by
  obtain ⟨c, hc, harranged, howned⟩ := h.exists_isOwnedBy
  refine ⟨fun operation => ?_, fun hfailed => ?_, fun operation hrefused => ?_⟩
  · rw [act_eq_foreign harranged hc, howned.not_accepts]
  · rw [hc, ← howned.owner, ← howned.untouched hfailed]
  · have hforeign := ((act_eq_foreign harranged hc).1 hrefused).2
    constructor
    · rintro ⟨turn, hturn, hsucceeded, -⟩
      exact ⟨turn, hturn, hsucceeded⟩
    · rintro ⟨turn, hturn, hsucceeded⟩
      refine ⟨turn, hturn, hsucceeded, fun hsame => hforeign (.inr ?_)⟩
      rw [howned.changes turn hturn hsucceeded, hsame]

/-- Thread 2 registers nothing and thread 1 closes a loop that is not there. Thread 1 was the first
to ask for a change, so that thread 0 cannot open a kernel. -/
theorem first_caller_fails :
    ∃ (w : World) (turns : List Turn), Interleaved 0 w turns ∧
      turns.map Turn.thread = [2, 1] ∧ (∀ turn ∈ turns, ¬turn.Succeeded) ∧ w.thread.id = 0 ∧
      w.context? 0 = some { Context.fresh 0 with owner := some 1 } ∧
      (((openKernel "copy" .unbound none).act 0).runOn w).1 = .error .foreignThread := by
  have hstart := lone.switch { id := 2 }
  have hnull := (hstart.turn _ _ (register none)).switch { id := 1 }
  have hw := (hnull.turn _ _ closeLoop).switch {}
  obtain ⟨hforeign, hfresh, -⟩ := first_caller hw
  refine ⟨_, _, hw, rfl, ?hfailed, rfl, hfresh ?hfailed, (hforeign _).2 ⟨rfl, _, rfl, by decide⟩⟩
  refine List.forall_mem_cons.2 ⟨?_, List.forall_mem_singleton.2 ?_⟩
  · exact Turn.not_succeeded (e := .nullRegistered) rfl nofun
  · exact Turn.not_succeeded (e := .noLoopToClose) rfl nofun

/-- Thread 1 closes a kernel that is not there, and thread 0 cannot open one from then on, although
nothing has been changed. -/
theorem locked_out :
    ∃ (w : World) (turns : List Turn), Interleaved 0 w turns ∧ turns.map Turn.thread = [1] ∧
      (∀ turn ∈ turns, ¬turn.Succeeded) ∧ w.thread.id = 0 ∧
      w.context? 0 = some { Context.fresh 0 with owner := some 1 } ∧
      (((openKernel "K" .unbound none).act 0).runOn w).1 = .error .foreignThread := by
  have hstart := lone.switch { id := 1 }
  have hw := (hstart.turn _ _ closeKernel).switch {}
  refine ⟨_, _, hw, rfl, List.forall_mem_singleton.2 ?_, rfl, rfl, rfl⟩
  exact Turn.not_succeeded (e := .noKernelToClose) rfl nofun

end Interleaved

end TileTrace
