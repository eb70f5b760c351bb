import Mathlib.Data.List.Nodup
import TileTrace.Proofs.Ownership

/-!
# Schedules of threads

A context knows the thread that may change it by a number, and the number of a
thread is given again after the thread has ended. `Scheduled` tells threads apart
from their numbers: threads start with a number that no living thread has, take
turns, and end. `Distinct` is what all this preserves. The main theorem,
`Scheduled.single_writer`, says what the numbers are good for. While the thread
that has changed a context lives, no other living thread can change the context. A
thread that starts later and gets its number can: this is
`Scheduled.two_writers`.
-/

namespace TileTrace

/-- A thread, by how many threads started before it. No two threads share this. -/
abbrev Runner := Nat

/-- A thread that lives, with its number. -/
structure LivingThread where
  runner : Runner
  number : ThreadId

/-- A turn of a thread. -/
structure ThreadTurn extends Turn where
  runner : Runner

/-- The worlds that threads lead to which start, take turns in operations on a new context, and end.
They come with how many threads have started, those of them that live, and all turns so far. What
else happens leaves the context as it is. -/
inductive Scheduled (id : ContextId) :
    World → Nat → List LivingThread → List ThreadTurn → Prop where
  | fresh (w : World) : w.context? id = some (Context.fresh id) → Scheduled id w 0 [] []
  | start (w : World) (started : Nat) (living : List LivingThread) (taken : List ThreadTurn)
      (number : ThreadId) :
      Scheduled id w started living taken → number ∉ living.map LivingThread.number →
      Scheduled id w (started + 1) (⟨started, number⟩ :: living) taken
  | finish (w : World) (started : Nat) (before after : List LivingThread) (thread : LivingThread)
      (taken : List ThreadTurn) :
      Scheduled id w started (before ++ thread :: after) taken →
      Scheduled id w started (before ++ after) taken
  | turn (w : World) (started : Nat) (living : List LivingThread) (taken : List ThreadTurn)
      (runner : Runner) (operation : Operation) :
      Scheduled id w started living taken → ⟨runner, w.thread.id⟩ ∈ living →
      Scheduled id ((operation.act id).runOn w).2 started living
        (taken ++ [⟨w.turn id operation, runner⟩])
  | elsewhere (w w' : World) (started : Nat) (living : List LivingThread)
      (taken : List ThreadTurn) :
      Scheduled id w started living taken → w'.context? id = w.context? id →
      Scheduled id w' started living taken

open Operation Trace

variable {id : ContextId} {w : World} {started : Nat} {living : List LivingThread}
  {taken : List ThreadTurn}

/-- The threads that live are distinct and so are their numbers, and a thread had its number in all
its turns. -/
structure Distinct (started : Nat) (living : List LivingThread) (taken : List ThreadTurn) :
    Prop where
  living_lt : ∀ thread ∈ living, thread.runner < started
  taken_lt : ∀ turn ∈ taken, turn.runner < started
  runners : (living.map LivingThread.runner).Nodup
  numbers : (living.map LivingThread.number).Nodup
  number_eq : ∀ thread ∈ living, ∀ turn ∈ taken, turn.runner = thread.runner →
    turn.thread = thread.number

namespace Distinct

variable {thread other : LivingThread}

theorem nil : Distinct 0 [] [] where
  living_lt := by simp
  taken_lt := by simp
  runners := .nil
  numbers := .nil
  number_eq := by simp

/-- A thread that starts has had no turn. -/
theorem start (h : Distinct started living taken) {number : ThreadId}
    (hnumber : number ∉ living.map LivingThread.number) :
    Distinct (started + 1) (⟨started, number⟩ :: living) taken where
  living_lt := by
    refine List.forall_mem_cons.2 ⟨Nat.lt_succ_self started, fun thread hthread => ?_⟩
    exact Nat.lt_succ_of_lt (h.living_lt thread hthread)
  taken_lt turn hturn := Nat.lt_succ_of_lt (h.taken_lt turn hturn)
  runners := by
    refine List.nodup_cons.2 ⟨fun hmem => ?_, h.runners⟩
    obtain ⟨thread, hthread, hrunner⟩ := List.mem_map.1 hmem
    exact absurd hrunner (Nat.ne_of_lt (h.living_lt thread hthread))
  numbers := List.nodup_cons.2 ⟨hnumber, h.numbers⟩
  number_eq := by
    refine List.forall_mem_cons.2 ⟨fun turn hturn hrunner => ?_, h.number_eq⟩
    exact absurd hrunner (Nat.ne_of_lt (h.taken_lt turn hturn))

/-- Threads that end leave the others distinct. -/
theorem sublist {fewer : List LivingThread} (h : Distinct started living taken)
    (hfewer : fewer.Sublist living) : Distinct started fewer taken where
  living_lt thread hthread := h.living_lt thread (hfewer.subset hthread)
  taken_lt := h.taken_lt
  runners := h.runners.sublist (hfewer.map _)
  numbers := h.numbers.sublist (hfewer.map _)
  number_eq thread hthread := h.number_eq thread (hfewer.subset hthread)

/-- A thread is known by its runner among those that live. -/
theorem eq_of_runner (h : Distinct started living taken) (hthread : thread ∈ living)
    (hother : other ∈ living) (hrunner : thread.runner = other.runner) : thread = other :=
  List.inj_on_of_nodup_map h.runners hthread hother hrunner

/-- A thread is known by its number among those that live. -/
theorem eq_of_number (h : Distinct started living taken) (hthread : thread ∈ living)
    (hother : other ∈ living) (hnumber : thread.number = other.number) : thread = other :=
  List.inj_on_of_nodup_map h.numbers hthread hother hnumber

/-- A living thread takes a turn with its number. -/
theorem turn (h : Distinct started living taken) (hthread : thread ∈ living) {turn : Turn}
    (hturn : turn.thread = thread.number) :
    Distinct started living (taken ++ [⟨turn, thread.runner⟩]) where
  living_lt := h.living_lt
  taken_lt := by
    refine List.forall_mem_append.2 ⟨h.taken_lt, ?_⟩
    exact List.forall_mem_singleton.2 (h.living_lt thread hthread)
  runners := h.runners
  numbers := h.numbers
  number_eq other hother := by
    refine List.forall_mem_append.2 ⟨h.number_eq other hother, ?_⟩
    refine List.forall_mem_singleton.2 fun hrunner => ?_
    rw [h.eq_of_runner hother hthread hrunner.symm]
    exact hturn

end Distinct

namespace Scheduled

/-- The threads of a schedule that live are distinct. -/
theorem distinct (h : Scheduled id w started living taken) : Distinct started living taken := by
  induction h with
  | fresh w hfresh => exact .nil
  | start w started living taken number _ hnumber ih => exact ih.start hnumber
  | finish w started before after thread taken _ ih =>
      exact ih.sublist ((List.sublist_cons_self thread after).append_left before)
  | turn w started living taken runner operation _ hliving ih => exact ih.turn hliving rfl
  | elsewhere w w' started living taken _ hcontext ih => exact ih

/-- The turns of a schedule are those of an interleaving. -/
theorem interleaved (h : Scheduled id w started living taken) :
    Interleaved id w (taken.map ThreadTurn.toTurn) := by
  induction h with
  | fresh w hfresh => exact .fresh w hfresh
  | start _ _ _ _ _ _ _ ih => exact ih
  | finish _ _ _ _ _ _ _ ih => exact ih
  | turn w started living taken runner operation _ _ ih =>
      rw [List.map_append]
      exact .turn w _ operation ih
  | elsewhere w w' started living taken _ hcontext ih => exact .elsewhere w w' _ ih hcontext

/-- All changes of a context come from threads with one number, and of these only one lives. While a
thread that has changed the context lives, whatever another living thread asks for, unless it is
about a null node, is refused for the thread and changes nothing at all, so that everything goes on
as if the other thread had not asked. A thread with the number of one that has changed the context
is never refused for the thread, even if it is another one. -/
theorem single_writer (h : Scheduled id w started living taken) :
    (∀ turn ∈ taken, ∀ other ∈ taken, turn.Succeeded → other.Succeeded →
      turn.thread = other.thread ∧
        (turn.runner ∈ living.map LivingThread.runner →
          other.runner ∈ living.map LivingThread.runner → turn.runner = other.runner)) ∧
    (∀ turn ∈ taken, turn.Succeeded → turn.runner ∈ living.map LivingThread.runner →
      ∀ runner ≠ turn.runner, ⟨runner, w.thread.id⟩ ∈ living →
        ∀ operation : Operation, operation.onNull = false →
          (operation.act id).runOn w = (.error .foreignThread, w) ∧
          ∀ (α : Type) (next : Thread) (rest : Trace α),
            (do
              let _ ← observing (operation.act id)
              Trace.modifyThread fun _ => next
              rest : Trace α).runOn w =
            (do
              Trace.modifyThread fun _ => next
              rest : Trace α).runOn w) ∧
    ∀ turn ∈ taken, turn.Succeeded → w.thread.id = turn.thread → ∀ operation : Operation,
      ((operation.act id).runOn w).1 ≠ .error .foreignThread := by
  have hdistinct := h.distinct
  have hturns := h.interleaved
  have hmem {turn : ThreadTurn} (hturn : turn ∈ taken) :
      turn.toTurn ∈ taken.map ThreadTurn.toTurn := List.mem_map_of_mem hturn
  refine ⟨fun turn hturn other hother hsucceeded hsucceeded' => ?_,
    fun turn hturn hsucceeded hlives runner hrunner hrunning operation hnull => ?_,
    fun turn hturn hsucceeded hsame operation hforeign => ?_⟩
  · have hthread := hturns.thread_eq (hmem hturn) (hmem hother) hsucceeded hsucceeded'
    refine ⟨hthread, fun hlives hlives' => ?_⟩
    obtain ⟨thread, hthreadLives, hrunner⟩ := List.mem_map.1 hlives
    obtain ⟨thread', hthreadLives', hrunner'⟩ := List.mem_map.1 hlives'
    have hnumber : thread.number = thread'.number := by
      rw [← hdistinct.number_eq thread hthreadLives turn hturn hrunner.symm, hthread,
        hdistinct.number_eq thread' hthreadLives' other hother hrunner'.symm]
    rw [← hrunner, ← hrunner', hdistinct.eq_of_number hthreadLives hthreadLives' hnumber]
  · obtain ⟨thread, hthread, hsame⟩ := List.mem_map.1 hlives
    have hforeign : w.thread.id ≠ turn.thread := by
      intro hnumber
      rw [hdistinct.number_eq thread hthread turn hturn hsame.symm] at hnumber
      have hone := hdistinct.eq_of_number hrunning hthread hnumber
      exact hrunner ((congrArg LivingThread.runner hone).trans hsame)
    exact hturns.refused ((hturns.eq_foreign_iff (hmem hturn) hsucceeded operation).2
      ⟨hnull, hforeign⟩)
  · exact ((hturns.eq_foreign_iff (hmem hturn) hsucceeded operation).1 hforeign).2 hsame

/-- A thread lives that has started before all others. -/
theorem lone : Scheduled 0 World.lone 1 [⟨0, 0⟩] [] :=
  .start _ _ _ _ 0 (.fresh World.lone rfl) List.not_mem_nil

/-- Another thread may run on. -/
theorem switch (h : Scheduled id w started living taken) (next : Thread) :
    Scheduled id { w with thread := next } started living taken :=
  .elsewhere w _ _ _ _ h rfl

/-- Of two threads that live, one opens a kernel that the other one cannot close, and closes it as
if the other one had not tried. -/
theorem single_writer_close :
    ∃ (w : World) (turn : ThreadTurn), Scheduled 0 w 2 [⟨1, 1⟩, ⟨0, 0⟩] [turn] ∧
      turn.Succeeded ∧ turn.runner = 0 ∧ w.thread.id = 1 ∧
      (closeKernel.act 0).runOn w = (.error .foreignThread, w) ∧
      ((do
        let _ ← observing (closeKernel.act 0)
        Trace.modifyThread fun _ => {}
        closeKernel.act 0 : Trace Unit).runOn w).1 = .ok () := by
  have hstarted := lone.start _ _ _ _ 1 (by simp)
  have hopened := hstarted.turn _ _ _ _ 0 (openKernel "copy" .unbound none) (by simp [World.lone])
  have hw := hopened.switch { id := 1 }
  have hsucceeded : (World.lone.turn 0 (openKernel "copy" .unbound none)).Succeeded := .inl rfl
  obtain ⟨hrefused, hrest⟩ := hw.single_writer.2.1 _ List.mem_cons_self hsucceeded (by simp) 1
    (by decide) List.mem_cons_self closeKernel rfl
  refine ⟨_, _, hw, hsucceeded, rfl, rfl, hrefused, ?_⟩
  rw [hrest]
  decide +kernel

/-- A thread opens a kernel and ends, and the next thread gets its number and opens a loop. Both
change the context. -/
theorem two_writers :
    ∃ (w : World) (turn other : ThreadTurn), Scheduled 0 w 3 [⟨2, 1⟩, ⟨0, 0⟩] [turn, other] ∧
      turn.operation = openKernel "K" .unbound none ∧ other.operation = openLoop none ∧
      turn.Succeeded ∧ other.Succeeded ∧ turn.runner = 1 ∧ other.runner = 2 := by
  have hstarted := (lone.start _ _ _ _ 1 (by simp)).switch (Thread.child {})
  have hopened := hstarted.turn _ _ _ _ 1 (openKernel "K" .unbound none) List.mem_cons_self
  have hended := Scheduled.finish _ _ [] _ _ _ hopened
  have hrestarted := (hended.start _ _ _ _ 1 (by simp)).switch (Thread.child {})
  have hw := hrestarted.turn _ _ _ _ 2 (openLoop none) List.mem_cons_self
  exact ⟨_, _, _, hw, rfl, rfl, .inl rfl, .inl rfl, rfl, rfl⟩

end Scheduled

end TileTrace
