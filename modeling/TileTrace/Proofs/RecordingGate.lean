import Mathlib.Data.List.InsertIdx
import Mathlib.Data.List.Perm.Basic
import TileTrace.Proofs.SparedContexts

/-!
# When a thread records, and where

A thread records if it is in recording mode and a context is active. The mode and
the stack of active contexts are changed by different guards, and by entering and
exiting contexts. `GuardedWorld.IsNested` says how the mode follows the guards of
nested scopes through all of this, `count_active_after` bounds the entries of a
context on the stack by its guards and by how often it was entered and not exited,
in whichever order guards end, and `Inside.after` says what is on the stack inside
a guard as long as nothing is entered or exited there. The main theorem is
`gate_follows_guards`: the innermost guard that sets the mode decides whether the
thread records, and it records into the innermost active context, whichever guard
has made that one active.
-/

namespace TileTrace

/-- The mode that a guard sets. -/
def GuardScope.mode? : GuardScope → Option Mode
  | context _ => none
  | recording _ => some .recording
  | mode entered => some entered

/-- The mode inside the given scopes. The innermost one that sets the mode decides. -/
def modeInside (start : Mode) (scopes : List GuardScope) : Mode :=
  (scopes.findSome? GuardScope.mode?).getD start

/-- The scopes of the guards that live, innermost first. -/
abbrev scopesOf (living : List (GuardScope × Guard)) : List GuardScope :=
  living.map Prod.fst

/-- The guard that is made for a scope, in whichever mode. -/
inductive Guard.IsOf : GuardScope → Guard → Prop where
  | context (id : ContextId) : IsOf (.context (some id)) (.context id)
  | recording (id : ContextId) (saved : Mode) : IsOf (.recording id) (.recording id saved)
  | mode (entered saved : Mode) : IsOf (.mode entered) (.mode saved)

/-- A guard takes from the stack what its scope puts there. -/
theorem Guard.IsOf.context?_eq {scope : GuardScope} {guard : Guard} (h : IsOf scope guard) :
    guard.context? = scope.context? := by
  cases h <;> rfl

theorem Guard.IsOf.leave_disable {scope : GuardScope} {guard : Guard} (h : IsOf scope guard)
    (w : World) : (guard.leave.runOn w).2.disable = w.disable := by
  cases h <;> rfl

/-- Every guard brings back the mode that there is outside of it. -/
inductive Restores (start : Mode) : List (GuardScope × Guard) → Prop where
  | nil : Restores start []
  | context (id : ContextId) (outer : List (GuardScope × Guard)) :
      Restores start outer → Restores start ((.context (some id), .context id) :: outer)
  | recording (id : ContextId) (outer : List (GuardScope × Guard)) :
      Restores start outer →
      Restores start ((.recording id, .recording id (modeInside start (scopesOf outer))) :: outer)
  | mode (entered : Mode) (outer : List (GuardScope × Guard)) :
      Restores start outer →
      Restores start ((.mode entered, .mode (modeInside start (scopesOf outer))) :: outer)

theorem Thread.mode_exit {thread left : Thread} {id : ContextId} (h : thread.exit id = .ok left) :
    left.mode = thread.mode := by
  rw [exit] at h
  split at h
  · split at h <;> cases h
    rfl
  · cases h

namespace GuardedWorld

/-- The scopes of the living guards, innermost first. -/
def scopes (s : GuardedWorld) : List GuardScope :=
  scopesOf s.living

/-- The living guards are those of their scopes, and the options are as at the start. -/
structure IsGuarded (start : World) (s : GuardedWorld) : Prop where
  guards : ∀ living ∈ s.living, Guard.IsOf living.1 living.2
  disable : s.world.disable = start.disable

/-- The mode is that of the innermost guard that sets it, and the guards bring back what there was
before them. -/
structure IsNested (start : World) (s : GuardedWorld) : Prop where
  mode : s.world.thread.mode = modeInside start.thread.mode s.scopes
  restores : Restores start.thread.mode s.living

variable {start : World} {s : GuardedWorld} {id : ContextId} {scope : GuardScope} {guard : Guard}

/-- Exiting a context changes the stack only. -/
theorem keeps_exited (s : GuardedWorld) (id : ContextId) :
    (s.next (.exited id)).world.thread.mode = s.world.thread.mode ∧
      (s.next (.exited id)).world.disable = s.world.disable := by
  rw [next, Trace.runOn_exit]
  cases hexit : s.world.thread.exit id with
  | error e => exact ⟨rfl, rfl⟩
  | ok thread => exact ⟨Thread.mode_exit hexit, rfl⟩

theorem isGuarded_start (w : World) : IsGuarded w ⟨w, []⟩ :=
  ⟨fun _ hliving => absurd hliving List.not_mem_nil, rfl⟩

theorem isNested_start (w : World) : IsNested w ⟨w, []⟩ :=
  ⟨rfl, .nil⟩

namespace IsGuarded

theorem isOf (h : s.IsGuarded start) {position : Nat}
    (hliving : s.living[position]? = some (scope, guard)) : Guard.IsOf scope guard :=
  h.guards _ (List.mem_of_getElem? hliving)

/-- Events keep the options and make guards of their scopes. -/
theorem next (h : s.IsGuarded start) (event : ThreadEvent) : IsGuarded start (s.next event) := by
  cases event with
  | made scope =>
      cases scope with
      | context found =>
          cases found with
          | none => exact ⟨h.guards, h.disable⟩
          | some id => exact ⟨List.forall_mem_cons.2 ⟨.context id, h.guards⟩, h.disable⟩
      | recording id => exact ⟨List.forall_mem_cons.2 ⟨.recording id _, h.guards⟩, h.disable⟩
      | mode entered => exact ⟨List.forall_mem_cons.2 ⟨.mode entered _, h.guards⟩, h.disable⟩
  | ended position =>
      cases hliving : s.living[position]? with
      | none =>
          rw [next_ended_none hliving]
          exact h
      | some ending =>
          rw [next_ended hliving]
          exact ⟨fun living hmem => h.guards living (List.mem_of_mem_eraseIdx hmem),
            ((h.isOf hliving).leave_disable s.world).trans h.disable⟩
  | entered id => exact ⟨h.guards, h.disable⟩
  | exited id => exact ⟨h.guards, (s.keeps_exited id).2.trans h.disable⟩

theorem after (h : s.IsGuarded start) (events : List ThreadEvent) :
    IsGuarded start (s.after events) :=
  after_induction h fun _ event _ h => h.next event

end IsGuarded

namespace IsNested

/-- The mode stays that of the innermost guard when guards end in the order of their scopes. -/
theorem next (h : s.IsNested start) {event : ThreadEvent}
    (hnested : ∀ position, event = .ended position → position = 0) :
    IsNested start (s.next event) := by
  obtain ⟨hmode, hrestores⟩ := h
  cases event with
  | made scope =>
      cases scope with
      | context found =>
          cases found with
          | none => exact ⟨hmode, hrestores⟩
          | some id => exact ⟨hmode, .context id _ hrestores⟩
      | recording id =>
          refine ⟨rfl, ?_⟩
          change Restores _ ((.recording id, .recording id s.world.thread.mode) :: s.living)
          rw [hmode]
          exact .recording id _ hrestores
      | mode entered =>
          refine ⟨rfl, ?_⟩
          change Restores _ ((.mode entered, .mode s.world.thread.mode) :: s.living)
          rw [hmode]
          exact .mode entered _ hrestores
  | ended position =>
      obtain rfl := hnested position rfl
      obtain ⟨w, living⟩ := s
      cases hrestores with
      | nil => exact ⟨hmode, .nil⟩
      | context id outer houter => exact ⟨hmode, houter⟩
      | recording id outer houter => exact ⟨rfl, houter⟩
      | mode entered outer houter => exact ⟨rfl, houter⟩
  | entered id => exact ⟨hmode, hrestores⟩
  | exited id => exact ⟨(s.keeps_exited id).1.trans hmode, hrestores⟩

theorem after (h : s.IsNested start) {events : List ThreadEvent}
    (hnested : ∀ position, .ended position ∈ events → position = 0) :
    IsNested start (s.after events) :=
  after_induction h fun _ _ hevent h => h.next fun position hended =>
    hnested position (hended ▸ hevent)

end IsNested

/-! ## The contexts of the guards -/

/-- A context that an event makes active has one entry more. -/
theorem count_toList_append (found : Option ContextId) (active : List ContextId) (id : ContextId) :
    (found.toList ++ active).count id = active.count id + if found = some id then 1 else 0 := by
  cases found with
  | none => simp
  | some other => simp [List.count_cons]

/-- A context that a guard takes from the stack has one entry less, if it had any. -/
theorem count_elim_erase (found : Option ContextId) (active : List ContextId) (id : ContextId) :
    (found.elim active active.erase).count id =
      active.count id - if found = some id then 1 else 0 := by
  cases found with
  | none => simp
  | some other =>
      by_cases h : other = id
      · subst h
        simp
      · simp [h, List.count_erase_of_ne (Ne.symm h)]

/-- A list is what it is without an entry, and that entry. -/
theorem perm_cons_eraseIdx {scopes : List GuardScope} {position : Nat}
    (h : scopes[position]? = some scope) : scopes.Perm (scope :: scopes.eraseIdx position) := by
  obtain ⟨hlt, rfl⟩ := List.getElem?_eq_some_iff.1 h
  exact (List.getElem_cons_eraseIdx_perm hlt).symm

theorem scopes_getElem? {position : Nat} (h : s.living[position]? = some (scope, guard)) :
    s.scopes[position]? = some scope := by
  rw [scopes, scopesOf, List.getElem?_map, h]
  rfl

theorem scopes_ended {position : Nat} (h : s.living[position]? = some (scope, guard)) :
    (s.next (.ended position)).scopes = s.scopes.eraseIdx position := by
  rw [next_ended h, scopes, scopes, scopesOf, scopesOf, List.eraseIdx_map]

/-- The number of living guards of a context. -/
def guardsOf (s : GuardedWorld) (id : ContextId) : Nat :=
  s.scopes.countP (·.context? = some id)

theorem guardsOf_made (s : GuardedWorld) (scope : GuardScope) (id : ContextId) :
    (s.next (.made scope)).guardsOf id =
      s.guardsOf id + if scope.context? = some id then 1 else 0 := by
  have hcons : (scope :: s.scopes).countP (·.context? = some id) =
      s.guardsOf id + if scope.context? = some id then 1 else 0 := by
    rw [List.countP_cons, guardsOf]
    simp only [decide_eq_true_eq]
  cases scope with
  | context found =>
      cases found with
      | none => rfl
      | some other => exact hcons
  | recording other => exact hcons
  | mode entered => exact hcons

theorem guardsOf_ended {position : Nat} (h : s.living[position]? = some (scope, guard))
    (id : ContextId) :
    s.guardsOf id =
      (s.next (.ended position)).guardsOf id + if scope.context? = some id then 1 else 0 := by
  have hperm := perm_cons_eraseIdx (scopes_getElem? h)
  rw [guardsOf, hperm.countP_eq, List.countP_cons, guardsOf, scopes_ended h]
  simp only [decide_eq_true_eq]

/-- How often a context was entered by itself and not exited again, when it was so often before an
event. An exit that fails does not count. -/
def entriesNext (s : GuardedWorld) (id : ContextId) (entries : Nat) : ThreadEvent → Nat
  | .entered other => if other = id then entries + 1 else entries
  | .exited other => if other = id ∧ s.current = some id then entries - 1 else entries
  | .made _ | .ended _ => entries

/-- How often a context was entered by itself and not exited again, when it was so often before a
list of events. -/
def entriesAfter (s : GuardedWorld) (id : ContextId) (entries : Nat) : List ThreadEvent → Nat
  | [] => entries
  | event :: events => (s.next event).entriesAfter id (s.entriesNext id entries event) events

/-- A context has no more entries than guards and entrances. -/
theorem count_active_next (h : s.IsGuarded start) {entries : Nat}
    (hcount : s.active.count id ≤ s.guardsOf id + entries) (event : ThreadEvent) :
    (s.next event).active.count id ≤
      (s.next event).guardsOf id + s.entriesNext id entries event := by
  cases event with
  | made scope =>
      rw [active_made, count_toList_append, guardsOf_made, entriesNext]
      omega
  | ended position =>
      rw [entriesNext]
      cases hliving : s.living[position]? with
      | none =>
          rw [next_ended_none hliving]
          exact hcount
      | some ending =>
          rw [guardsOf_ended hliving] at hcount
          rw [active_ended hliving, count_elim_erase, (h.isOf hliving).context?_eq]
          omega
  | entered other =>
      have hguards : (s.next (.entered other)).guardsOf id = s.guardsOf id := rfl
      rw [active_entered, List.count_cons, hguards, entriesNext]
      simp only [beq_iff_eq]
      split <;> omega
  | exited other =>
      have hguards : (s.next (.exited other)).guardsOf id = s.guardsOf id := rfl
      rw [active_exited, hguards, entriesNext]
      by_cases hexit : s.current = some other
      · obtain ⟨outer, hactive⟩ := List.head?_eq_some_iff.1 (s.current_eq ▸ hexit)
        rw [hactive, List.count_cons] at hcount
        rw [if_pos hexit, hactive, List.tail_cons, hexit]
        by_cases hother : other = id
        · simp only [hother, beq_self_eq_true, if_true] at hcount
          simp only [hother, and_self, if_true]
          omega
        · simp only [hother, false_and, if_false]
          omega
      · have hstays : ¬(other = id ∧ s.current = some id) := by
          rintro ⟨rfl, hcurrent⟩
          exact hexit hcurrent
        rw [if_neg hexit, if_neg hstays]
        exact hcount

theorem count_active_after (h : s.IsGuarded start) {entries : Nat}
    (hcount : s.active.count id ≤ s.guardsOf id + entries) (events : List ThreadEvent) :
    (s.after events).active.count id ≤
      (s.after events).guardsOf id + s.entriesAfter id entries events := by
  induction events generalizing s entries with
  | nil => exact hcount
  | cons event events ih => exact ih (h.next event) (count_active_next h hcount event)

end GuardedWorld

/-! ## Inside a guard -/

/-- Guards end innermost first, like those of nested scopes. -/
def EndInnermost (events : List ThreadEvent) : Prop :=
  ∀ position, .ended position ∈ events → position = 0

/-- The guards that live after an event, of those that were made since some moment. There are none
when an older guard ends, or when a context is entered or exited by itself. -/
def ThreadEvent.opens (opened : List GuardScope) : ThreadEvent → Option (List GuardScope)
  | made (.context none) => some opened
  | made scope => some (scope :: opened)
  | ended position =>
      if position < opened.length then some (opened.eraseIdx position) else none
  | entered _ => none
  | exited _ => none

namespace GuardedWorld

variable {start : World} {s : GuardedWorld} {id : ContextId} {active : List ContextId}
  {outside opened : List GuardScope}

/-- Since some moment the given guards have been made and live, and the stack has their contexts
in addition, in the same order if the guards are nested. -/
structure Inside (nested : Prop) (active : List ContextId) (outside : List GuardScope)
    (s : GuardedWorld) (opened : List GuardScope) : Prop where
  active : ∃ added, s.active = added ++ active ∧
    added.Perm (opened.filterMap GuardScope.context?) ∧
    (nested → added = opened.filterMap GuardScope.context?)
  scopes : s.scopes = opened ++ outside

/-- The contexts of guards, the first guard apart. -/
theorem filterMap_context_cons (scope : GuardScope) (opened : List GuardScope) :
    (scope :: opened).filterMap GuardScope.context? =
      scope.context?.toList ++ opened.filterMap GuardScope.context? := by
  rw [List.filterMap_cons]
  cases scope.context? <;> rfl

/-- What is taken from a stack is taken from what was added last, if it is there. -/
theorem exists_elim_erase {found : Option ContextId} {added rest : List ContextId}
    (h : added.Perm (found.toList ++ rest)) (active : List ContextId) :
    ∃ left, found.elim (added ++ active) (added ++ active).erase = left ++ active ∧
      left.Perm rest ∧ (added = found.toList ++ rest → left = rest) := by
  cases found with
  | none => exact ⟨added, rfl, h, id⟩
  | some id =>
      have hmem : id ∈ added := h.mem_iff.2 List.mem_cons_self
      refine ⟨added.erase id, List.erase_append_left _ hmem, ?_, ?_⟩
      · have herased := h.erase id
        rwa [Option.toList_some, List.singleton_append, List.erase_cons_head] at herased
      · rintro rfl
        exact List.erase_cons_head ..

variable {nested : Prop}

namespace Inside

theorem nil (s : GuardedWorld) : Inside nested s.active s.scopes s [] :=
  ⟨⟨[], rfl, .nil, fun _ => rfl⟩, rfl⟩

theorem made (h : Inside nested active outside s opened) {scope : GuardScope}
    (hscopes : (s.next (.made scope)).scopes = scope :: s.scopes) :
    Inside nested active outside (s.next (.made scope)) (scope :: opened) := by
  obtain ⟨added, hactive, hadded, hexact⟩ := h.active
  refine ⟨⟨scope.context?.toList ++ added, ?_, ?_, fun hnested => ?_⟩, ?_⟩
  · rw [active_made, hactive, List.append_assoc]
  · rw [filterMap_context_cons]
    exact hadded.append_left _
  · rw [filterMap_context_cons, hexact hnested]
  · rw [hscopes, h.scopes]
    rfl

theorem ended (h : Inside nested active outside s opened) (hguarded : s.IsGuarded start)
    {position : Nat} (hposition : position < opened.length) (hnested : nested → position = 0) :
    Inside nested active outside (s.next (.ended position)) (opened.eraseIdx position) := by
  obtain ⟨added, hactive, hadded, hexact⟩ := h.active
  obtain ⟨scope, hscope⟩ : ∃ scope, opened[position]? = some scope :=
    ⟨_, List.getElem?_eq_getElem hposition⟩
  obtain ⟨⟨ending, guard⟩, hliving, rfl⟩ : ∃ living, s.living[position]? = some living ∧
      living.1 = scope := by
    have hthere : s.scopes[position]? = some scope := by
      rw [h.scopes, List.getElem?_append_left hposition, hscope]
    rwa [GuardedWorld.scopes, scopesOf, List.getElem?_map, Option.map_eq_some_iff] at hthere
  have hopened := (perm_cons_eraseIdx hscope).filterMap GuardScope.context?
  rw [filterMap_context_cons] at hopened
  obtain ⟨left, hleft, hperm, hsame⟩ := exists_elim_erase (hadded.trans hopened) active
  refine ⟨⟨left, ?_, hperm, fun hends => hsame ?_⟩, ?_⟩
  · rw [active_ended hliving, (hguarded.isOf hliving).context?_eq, hactive, hleft]
  · -- Of nested guards, the innermost one is the one that ends.
    obtain rfl := hnested hends
    obtain ⟨rest, rfl⟩ := List.head?_eq_some_iff.1 (List.head?_eq_getElem?.trans hscope)
    rw [hexact hends, filterMap_context_cons, List.eraseIdx_cons_zero]
  · rw [scopes_ended hliving, h.scopes, List.eraseIdx_append_of_lt_length hposition]

theorem next (h : Inside nested active outside s opened) (hguarded : s.IsGuarded start)
    {event : ThreadEvent} {left : List GuardScope} (hopens : event.opens opened = some left)
    (hnested : nested → ∀ position, event = .ended position → position = 0) :
    Inside nested active outside (s.next event) left := by
  cases event with
  | made scope =>
      cases scope with
      | context found =>
          cases found with
          | none =>
              obtain rfl := Option.some.inj hopens
              exact ⟨h.active, h.scopes⟩
          | some id =>
              obtain rfl := Option.some.inj hopens
              exact h.made rfl
      | recording id =>
          obtain rfl := Option.some.inj hopens
          exact h.made rfl
      | mode entered =>
          obtain rfl := Option.some.inj hopens
          exact h.made rfl
  | ended position =>
      rw [ThreadEvent.opens] at hopens
      split at hopens
      · next hposition =>
        obtain rfl := Option.some.inj hopens
        exact h.ended hguarded hposition fun h => hnested h position rfl
      · cases hopens
  | entered id => cases hopens
  | exited id => cases hopens

/-- As long as no older guard ends and no context is entered or exited by itself, the stack has the
contexts of the guards that were made and live. -/
theorem after (h : Inside nested active outside s opened) (hguarded : s.IsGuarded start)
    {events : List ThreadEvent} {left : List GuardScope}
    (hopens : events.foldlM ThreadEvent.opens opened = some left)
    (hnested : nested → EndInnermost events) :
    Inside nested active outside (s.after events) left := by
  induction events generalizing s opened with
  | nil =>
      obtain rfl := Option.some.inj hopens
      exact h
  | cons event events ih =>
      obtain ⟨next, hnext, hrest⟩ := Option.bind_eq_some_iff.1 hopens
      refine ih (h.next hguarded hnext fun h position hevent => ?_) (hguarded.next event) hrest
        fun h position hmem => hnested h position (List.mem_cons_of_mem _ hmem)
      exact hnested h position (hevent ▸ List.mem_cons_self)

/-- As long as no context is entered or exited by itself, the stack has the contexts of the living
guards. -/
theorem whole (h : Inside nested active [] s s.scopes) (hguarded : s.IsGuarded start)
    {events : List ThreadEvent} (hraw : ∀ id, .entered id ∉ events ∧ .exited id ∉ events)
    (hnested : nested → EndInnermost events) :
    Inside nested active [] (s.after events) (s.after events).scopes := by
  refine (after_induction (P := fun s => s.IsGuarded start ∧ Inside nested active [] s s.scopes)
    ⟨hguarded, h⟩ ?_).2
  rintro s event hevent ⟨hguarded, h⟩
  refine ⟨hguarded.next event, ?_⟩
  have hnext {left : List GuardScope} (hopens : event.opens s.scopes = some left) :
      Inside nested active [] (s.next event) (s.next event).scopes := by
    have hinside := h.next hguarded hopens fun h position hended =>
      hnested h position (hended ▸ hevent)
    have hscopes := hinside.scopes
    rw [List.append_nil] at hscopes
    rwa [hscopes]
  cases event with
  | made scope =>
      cases scope with
      | context found => cases found <;> exact hnext rfl
      | recording id => exact hnext rfl
      | mode entered => exact hnext rfl
  | ended position =>
      cases hliving : s.living[position]? with
      | none =>
          rw [next_ended_none hliving]
          exact h
      | some ending =>
          have hposition : position < s.scopes.length :=
            (List.getElem?_eq_some_iff.1 (scopes_getElem? hliving)).1
          exact hnext (if_pos hposition)
  | entered id => exact absurd hevent (hraw id).1
  | exited id => exact absurd hevent (hraw id).2

/-- Of nested guards, the innermost one that makes a context active has made the innermost active
context active. -/
theorem current (h : Inside nested active outside s opened) (hnested : nested) :
    s.current = (opened.findSome? GuardScope.context?).or active.head? := by
  obtain ⟨added, hactive, -, hexact⟩ := h.active
  rw [current_eq, hactive, hexact hnested, List.head?_append, List.head?_filterMap]

end Inside

/-! ## The gate -/

/-- A thread records if it is in recording mode inside its guards. -/
theorem isRecording_iff (hguarded : s.IsGuarded start) (hnested : s.IsNested start)
    (hnormal : start.thread.mode = .normal) :
    s.world.isRecording = true ↔
      s.scopes.findSome? GuardScope.mode? = some .recording ∧ s.current ≠ none ∧
        start.disable.has .recording = false := by
  have hmode : s.world.thread.mode = .recording ↔
      s.scopes.findSome? GuardScope.mode? = some .recording := by
    rw [hnested.mode, hnormal, modeInside]
    cases s.scopes.findSome? GuardScope.mode? <;> simp
  simp only [World.isRecording, Bool.and_eq_true, decide_eq_true_eq, Bool.not_eq_true', hmode,
    hguarded.disable, Option.isSome_iff_ne_none, and_assoc, current]

/-- The recording gate follows the mode of the guards and the stack of active contexts, through any
sequence of guards that are made and end and of contexts that are entered and exited. When the
guards end innermost first, a thread records if the innermost guard that sets the mode sets it to
recording, some context is active, and recording is not disabled. Without a context that is entered
or exited by itself, the active contexts are those of the living guards, and the innermost guard
that makes a context active has made the innermost one active. This also holds inside a recording
guard, whatever happened before it. A context that no living guard has made active, and that was
exited as often as it was entered, is never recorded into. -/
theorem gate_follows_guards (w : World) (hactive : w.thread.active = [])
    (hnormal : w.thread.mode = .normal) (events : List ThreadEvent) :
    let s := GuardedWorld.after ⟨w, []⟩ events
    (EndInnermost events →
      (s.world.isRecording = true ↔
        s.scopes.findSome? GuardScope.mode? = some .recording ∧ s.current ≠ none ∧
          w.disable.has .recording = false)) ∧
    ((∀ id, .entered id ∉ events ∧ .exited id ∉ events) →
      s.active.Perm (s.scopes.filterMap GuardScope.context?) ∧
        (EndInnermost events → s.current = s.scopes.findSome? GuardScope.context?)) ∧
    (∀ (before inside : List ThreadEvent) (id : ContextId) (opened : List GuardScope),
      events = before ++ .made (.recording id) :: inside →
      inside.foldlM ThreadEvent.opens [] = some opened →
      let outer := GuardedWorld.after ⟨w, []⟩ before
      s.scopes = opened ++ .recording id :: outer.scopes ∧
      (∃ added, s.active = added ++ id :: outer.active ∧
        added.Perm (opened.filterMap GuardScope.context?)) ∧
      (EndInnermost inside →
        s.current = (opened.findSome? GuardScope.context?).or (some id))) ∧
    ∀ other, (∀ scope ∈ s.scopes, scope.context? ≠ some other) →
      GuardedWorld.entriesAfter ⟨w, []⟩ other 0 events = 0 →
      s.current ≠ some other ∧
      ∀ (bodies : Bodies) (depth : Nat) (p : GuardedProgram), bodies.Avoid other →
        p.Avoids other →
        ((bodies.run depth p).runOn s.world).2.context? other = s.world.context? other := by
  intro s
  have hstart := isGuarded_start w
  refine ⟨fun hnested => ?_, fun hraw => ?_, ?_, fun other hscopes hentries => ?_⟩
  · exact isRecording_iff (hstart.after events) ((isNested_start w).after hnested) hnormal
  · have hnil : Inside (EndInnermost events) w.thread.active [] ⟨w, []⟩ [] := .nil ⟨w, []⟩
    have hwhole := hnil.whole hstart hraw id
    obtain ⟨added, hadded, hperm, -⟩ := hwhole.active
    rw [hactive, List.append_nil] at hadded
    refine ⟨hadded ▸ hperm, fun hnested => ?_⟩
    rw [hwhole.current hnested, hactive]
    exact Option.or_none
  · rintro before inside id opened rfl hopens outer
    have hmade : Inside (EndInnermost inside) (id :: outer.active) (.recording id :: outer.scopes)
        (outer.next (.made (.recording id))) [] := .nil (outer.next (.made (.recording id)))
    have hinside := hmade.after ((hstart.after before).next _) hopens fun h => h
    have hs : s = (outer.next (.made (.recording id))).after inside :=
      after_append _ before (.made (.recording id) :: inside)
    rw [hs]
    obtain ⟨added, hadded, hperm, -⟩ := hinside.active
    exact ⟨hinside.scopes, ⟨added, hadded, hperm⟩, hinside.current⟩
  · have hnone : (GuardedWorld.active ⟨w, []⟩).count other ≤ guardsOf ⟨w, []⟩ other + 0 := by
      rw [GuardedWorld.active, hactive]
      exact Nat.zero_le _
    have hcount : s.active.count other ≤
        s.guardsOf other + GuardedWorld.entriesAfter ⟨w, []⟩ other 0 events :=
      count_active_after hstart hnone events
    have hguards : s.guardsOf other = 0 := by
      rw [guardsOf, List.countP_eq_zero]
      exact fun scope hscope => by simpa using hscopes scope hscope
    rw [hentries, hguards] at hcount
    have hspared : other ∉ s.active := List.count_eq_zero.1 (Nat.le_zero.1 hcount)
    refine ⟨fun hcurrent => hspared (List.mem_of_mem_head? hcurrent), ?_⟩
    intro bodies depth p hbodies hp
    exact (Bodies.run_spares hbodies depth hp s.world hspared).1

/-- A program that launches one kernel. -/
def launching : GuardedProgram :=
  .launch { name := "copy", grid := .concrete 4 } (fun _ => .done) .done

/-- A thread goes on recording when a guard of normal mode has ended, and it leaves the other
context alone, which was entered and exited before. -/
theorem gate_follows_guards_nested :
    let s := GuardedWorld.after ⟨World.pair, []⟩
      [.entered 1, .exited 1, .made (.recording 0), .made (.mode .normal), .ended 0]
    s.world.isRecording = true ∧ s.current = some 0 ∧
      ((Bodies.run (fun _ _ => .done) 1 launching).runOn s.world).2.context? 1 =
        s.world.context? 1 := by
  intro s
  obtain ⟨hrecords, -, hinside, hspares⟩ := gate_follows_guards World.pair rfl rfl
    [.entered 1, .exited 1, .made (.recording 0), .made (.mode .normal), .ended 0]
  have hcurrent := (hinside [.entered 1, .exited 1] [.made (.mode .normal), .ended 0] 0 [] rfl
    rfl).2.2 (by simp [EndInnermost])
  refine ⟨(hrecords (by simp [EndInnermost])).2 ⟨rfl, nofun, rfl⟩, hcurrent, ?_⟩
  refine (hspares 1 ?_ rfl).2 _ 1 launching (fun _ _ => trivial) ?_
  · exact List.forall_mem_singleton.2 nofun
  · exact ⟨fun _ => trivial, trivial⟩

/-- Inside a recording guard of the first context, a guard of the second one makes the thread record
into the second one, and so does entering it. A guard of recording mode makes the thread record
without any recording guard. -/
theorem records_elsewhere :
    let s := GuardedWorld.after ⟨World.pair, []⟩ [.made (.recording 0), .made (.context (some 1))]
    let launched := ((Bodies.run (fun _ _ => .done) 1 launching).runOn s.world).2
    let entered := GuardedWorld.after ⟨World.pair, []⟩ [.made (.recording 0), .entered 1]
    let moded := GuardedWorld.after ⟨World.pair, []⟩ [.entered 1, .made (.mode .recording)]
    (s.scopes = [.context (some 1), .recording 0] ∧ s.world.isRecording = true ∧
      s.current = some 1 ∧ (launched.context? 0).map (·.size) = some 0 ∧
      (launched.context? 1).map (·.size) = some 2) ∧
    (entered.scopes = [.recording 0] ∧ entered.world.isRecording = true ∧
      entered.current = some 1) ∧
    moded.scopes = [.mode .recording] ∧ moded.world.isRecording = true := by
  refine ⟨⟨rfl, rfl, rfl, ?_, ?_⟩, ⟨rfl, rfl, rfl⟩, rfl, rfl⟩
  · decide +kernel
  · decide +kernel

end GuardedWorld

end TileTrace
