import TileTrace.Proofs.Balance

/-!
# The stack of active contexts

A thread makes guards and ends them, in any order, and it also enters and exits
contexts by itself. `GuardedWorld.after` runs through such events, and
`GuardedWorld.active_next` says what one of them can add to the stack of active
contexts. The main theorem, `destroyContext_active`, is about a context that is
destroyed in the middle of it all: the stack loses its innermost entry only, so
that the context is gone from the stack for good exactly if it was there at most
once.
-/

namespace TileTrace

/-- The context that a guard makes active. -/
def GuardScope.context? : GuardScope → Option ContextId
  | context id => id
  | recording id => some id
  | mode _ => none

/-- The context that a guard takes from the stack when it ends. -/
def Guard.context? : Guard → Option ContextId
  | context id => some id
  | recording id _ => some id
  | _ => none

/-- An exit that fails changes nothing. -/
theorem Trace.runOn_exit (id : ContextId) (w : World) :
    (exit id).runOn w =
      match w.thread.exit id with
      | .ok thread => (.ok (), { w with thread := thread })
      | .error e => (.error e, w) := by
  have hget : (exit id).runOn w =
      (do
        let thread ← ofExcept (w.thread.exit id)
        modifyThread fun _ => thread : Trace Unit).runOn w := rfl
  rw [hget, runOn_bind, runOn_ofExcept]
  cases w.thread.exit id <;> rfl

/-- What a thread does to its stack of active contexts and to its mode. -/
inductive ThreadEvent where
  | made (scope : GuardScope)
  /-- A living guard ends. Guards of nested scopes end with the innermost one, at position 0. -/
  | ended (position : Nat)
  | entered (id : ContextId)
  | exited (id : ContextId)

/-- The context that an event makes active. -/
def ThreadEvent.context? : ThreadEvent → Option ContextId
  | made scope => scope.context?
  | ended _ => none
  | entered id => some id
  | exited _ => none

/-- A world with the living guards of its thread, innermost first. -/
structure GuardedWorld where
  world : World
  living : List (GuardScope × Guard) := []

namespace GuardedWorld

/-- What comes after an event. A guard that cannot be made does not live, and an exit may fail. -/
def next (s : GuardedWorld) : ThreadEvent → GuardedWorld
  | .made scope =>
      match scope.enter.runOn s.world with
      | (.ok guard, w) => ⟨w, (scope, guard) :: s.living⟩
      | (.error _, w) => ⟨w, s.living⟩
  | .ended position =>
      match s.living[position]? with
      | none => s
      | some (_, guard) => ⟨(guard.leave.runOn s.world).2, s.living.eraseIdx position⟩
  | .entered id => ⟨((Trace.enter id).runOn s.world).2, s.living⟩
  | .exited id => ⟨((Trace.exit id).runOn s.world).2, s.living⟩

/-- What comes after a list of events. -/
def after (s : GuardedWorld) (events : List ThreadEvent) : GuardedWorld :=
  events.foldl next s

/-- The active contexts, innermost first. -/
def active (s : GuardedWorld) : List ContextId :=
  s.world.thread.active

/-- The innermost active context. -/
def current (s : GuardedWorld) : Option ContextId :=
  s.world.thread.current

variable {s : GuardedWorld} {id : ContextId}

theorem after_append (s : GuardedWorld) (events more : List ThreadEvent) :
    s.after (events ++ more) = (s.after events).after more :=
  List.foldl_append

/-- What the given events preserve holds after them. -/
theorem after_induction {P : GuardedWorld → Prop} {events : List ThreadEvent} (hstart : P s)
    (hnext : ∀ s, ∀ event ∈ events, P s → P (s.next event)) : P (s.after events) := by
  induction events generalizing s with
  | nil => exact hstart
  | cons event events ih =>
      refine ih (hnext s event List.mem_cons_self hstart) fun s later hlater => ?_
      exact hnext s later (List.mem_cons_of_mem _ hlater)

theorem current_eq (s : GuardedWorld) : s.current = s.active.head? := rfl

@[simp] theorem active_made (s : GuardedWorld) (scope : GuardScope) :
    (s.next (.made scope)).active = scope.context?.toList ++ s.active := by
  cases scope with
  | context id => cases id <;> rfl
  | recording id => rfl
  | mode entered => rfl

@[simp] theorem active_entered (s : GuardedWorld) (id : ContextId) :
    (s.next (.entered id)).active = id :: s.active := rfl

/-- Exiting the innermost active context takes it from the stack. Exiting another one fails. -/
@[simp] theorem active_exited (s : GuardedWorld) (id : ContextId) :
    (s.next (.exited id)).active = if s.current = some id then s.active.tail else s.active := by
  rw [active, next, Trace.runOn_exit, current, Thread.current, active, Thread.exit]
  cases hactive : s.world.thread.active with
  | nil => simp [hactive]
  | cons innermost outer => by_cases h : innermost = id <;> simp [hactive, h]

theorem next_ended_none {position : Nat} (h : s.living[position]? = none) :
    s.next (.ended position) = s := by
  rw [next, h]

theorem next_ended {position : Nat} {scope : GuardScope} {guard : Guard}
    (h : s.living[position]? = some (scope, guard)) :
    s.next (.ended position) =
      ⟨(guard.leave.runOn s.world).2, s.living.eraseIdx position⟩ := by
  rw [next, h]

/-- A guard takes the innermost entry of its context from the stack when it ends. -/
theorem active_ended {position : Nat} {scope : GuardScope} {guard : Guard}
    (h : s.living[position]? = some (scope, guard)) :
    (s.next (.ended position)).active = guard.context?.elim s.active s.active.erase := by
  rw [next_ended h, active]
  cases guard <;> rfl

/-- An event adds the context to the stack that it makes active, and it may remove others. -/
theorem active_next (s : GuardedWorld) (event : ThreadEvent) :
    (s.next event).active.Sublist (event.context?.toList ++ s.active) := by
  cases event with
  | made scope =>
      rw [active_made]
      exact List.Sublist.refl _
  | ended position =>
      cases hliving : s.living[position]? with
      | none =>
          rw [next_ended_none hliving]
          exact List.Sublist.refl _
      | some ending =>
          rw [active_ended hliving]
          cases ending.2.context? with
          | none => exact List.Sublist.refl _
          | some id => exact List.erase_sublist
  | entered id => exact List.Sublist.refl _
  | exited id =>
      rw [active_exited]
      split
      · exact List.tail_sublist s.active
      · exact List.Sublist.refl _

/-- A context stays off the stack until an event makes it active. -/
theorem notMem_active_after (h : id ∉ s.active) {events : List ThreadEvent}
    (hevents : ∀ event ∈ events, event.context? ≠ some id) : id ∉ (s.after events).active := by
  refine after_induction (P := fun s => id ∉ s.active) h fun s event hevent hout hmem => ?_
  obtain hadded | hthere := List.mem_append.1 ((active_next s event).subset hmem)
  · exact hevents event hevent (Option.mem_toList.1 hadded)
  · exact hout hthere

/-- Whatever is further out on the stack becomes the innermost active context by exits. -/
theorem active_after_exits {inner outer : List ContextId} (h : s.active = inner ++ outer) :
    (s.after (inner.map .exited)).active = outer := by
  induction inner generalizing s with
  | nil => exact h
  | cons innermost inner ih =>
      refine ih ?_
      have hcurrent : s.current = some innermost := by rw [current_eq, h]; rfl
      rw [active_exited, if_pos hcurrent, h]
      rfl

end GuardedWorld

/-! ## Destroying a context -/

namespace Thread

/-- Forgetting a context leaves all others on the stack, in their order. -/
theorem filter_forget (thread : Thread) (id : ContextId) :
    (thread.forget id).active.filter (· ≠ id) = thread.active.filter (· ≠ id) := by
  rw [forget]
  induction thread.active with
  | nil => rfl
  | cons innermost outer ih =>
      by_cases h : innermost = id
      · subst h
        simp
      · rw [List.erase_cons_tail (by simpa using h), List.filter_cons, List.filter_cons, ih]

/-- A context that is on the stack more than once stays there when it is forgotten. -/
theorem mem_forget (thread : Thread) (id : ContextId) :
    id ∈ (thread.forget id).active ↔ 1 < thread.active.count id := by
  rw [← List.count_pos_iff, forget, List.count_erase_self]
  omega

/-- Forgetting a context removes all its entries exactly if there is at most one. -/
theorem forget_eq_filter (thread : Thread) (id : ContextId) :
    (thread.forget id).active = thread.active.filter (· ≠ id) ↔ thread.active.count id ≤ 1 := by
  rw [← Nat.not_lt, ← mem_forget]
  constructor
  · intro h hmem
    rw [h] at hmem
    simpa using (List.mem_filter.1 hmem).2
  · intro h
    rw [← filter_forget, eq_comm, List.filter_eq_self]
    rintro other hother
    exact decide_eq_true fun heq => h (heq ▸ hother)

end Thread

namespace GuardedWorld

/-- Destroying a context removes its innermost entry from the stack and keeps all others in their
order. No entry of it is left, and it never becomes the innermost active context again unless it is
made active, exactly if it was on the stack at most once. -/
theorem destroyContext_active (id : ContextId) (s : GuardedWorld) :
    let destroyed : GuardedWorld := ⟨((Trace.destroyContext id).runOn s.world).2, s.living⟩
    destroyed.world.context? id = none ∧
    destroyed.active = s.active.erase id ∧
    destroyed.active.filter (· ≠ id) = s.active.filter (· ≠ id) ∧
    (destroyed.active = s.active.filter (· ≠ id) ↔ s.active.count id ≤ 1) ∧
    ((∀ events : List ThreadEvent, (∀ event ∈ events, event.context? ≠ some id) →
        (destroyed.after events).current ≠ some id) ↔ s.active.count id ≤ 1) := by
  intro destroyed
  refine ⟨?_, rfl, s.world.thread.filter_forget id, s.world.thread.forget_eq_filter id, ?_⟩
  · change (s.world.contexts.setIfInBounds id none)[id]?.join = none
    rw [Array.getElem?_setIfInBounds, if_pos rfl]
    split <;> rfl
  · have hmem : id ∈ destroyed.active ↔ ¬s.active.count id ≤ 1 :=
      (s.world.thread.mem_forget id).trans Nat.not_le.symm
    rw [← not_iff_not, ← hmem]
    constructor
    · intro h
      by_contra hgone
      exact h fun events hevents hcurrent =>
        notMem_active_after hgone hevents (List.mem_of_mem_head? hcurrent)
    · intro hthere h
      obtain ⟨inner, outer, hactive⟩ := List.append_of_mem hthere
      refine h (inner.map .exited) ?_ ?_
      · rintro event hevent
        obtain ⟨other, -, rfl⟩ := List.mem_map.1 hevent
        exact nofun
      · rw [current_eq, active_after_exits hactive]
        rfl

/-- The first of two contexts is entered twice, and then the second one. When the first one is
destroyed, an entry of it stays, so that it is the innermost active context again after an exit. -/
theorem destroyed_current :
    let entered := GuardedWorld.after ⟨World.pair, []⟩ [.entered 0, .entered 0, .entered 1]
    let destroyed : GuardedWorld := ⟨((Trace.destroyContext 0).runOn entered.world).2, []⟩
    entered.active = [1, 0, 0] ∧ destroyed.world.context? 0 = none ∧ destroyed.active = [1, 0] ∧
      (destroyed.after [.exited 1]).current = some 0 :=
  ⟨rfl, rfl, rfl, rfl⟩

end GuardedWorld

end TileTrace
