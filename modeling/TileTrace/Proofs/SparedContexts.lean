import TileTrace.Proofs.ActiveStack
import TileTrace.Proofs.ProgramInduction

/-!
# Spared contexts

A program records into the innermost active context only. `Trace.Bypasses` says
that a computation leaves alone a context that is not the innermost active one, and
`Trace.Spares` the same of a context that is not active at all. The main results
are `Bodies.run_bypasses` and `Bodies.run_spares`: a program whose guards name other
contexts leaves the context alone, however its steps nest.
-/

namespace TileTrace

/-- No guard of the program, whatever it looks at, makes the context active. -/
def GuardedProgram.Avoids (other : ContextId) : GuardedProgram → Prop
  | done => True
  | fail _ => True
  | look next => ∀ w, (next w).Avoids other
  | guarded guard body rest =>
      guard.context? ≠ some other ∧ body.Avoids other ∧ rest.Avoids other
  | launch _ body rest => (∀ v, (body v).Avoids other) ∧ rest.Avoids other
  | loop _ body rest => (∀ v, (body v).Avoids other) ∧ rest.Avoids other
  | call _ _ rest => rest.Avoids other

/-- No step function makes the context active. -/
def Bodies.Avoid (bodies : Bodies) (other : ContextId) : Prop :=
  ∀ function args, (bodies function args).Avoids other

/-- A guard makes its own context the innermost active one, or changes nothing about that. -/
theorem GuardScope.current_inside {guard : GuardScope} {outside thread : Thread}
    (h : guard.inside outside = some thread) :
    thread.current = guard.context?.or outside.current := by
  cases guard with
  | context id =>
      obtain ⟨id, rfl, rfl⟩ :=
        Option.map_eq_some_iff.1 (show id.map outside.enter = some thread from h)
      rfl
  | recording id =>
      obtain rfl := Option.some.inj h
      rfl
  | mode entered =>
      obtain rfl := Option.some.inj h
      rfl

/-- A program that avoids a context makes guards of other contexts only. -/
theorem GuardedProgram.Avoids.obeys {other : ContextId} {p : GuardedProgram}
    (h : p.Avoids other) : p.Obeys (fun guard => guard.context? ≠ some other) fun _ => True := by
  induction p with
  | done => trivial
  | fail error => trivial
  | look next ih => exact ⟨trivial, fun w => ih w (h w)⟩
  | guarded guard body rest ihbody ihrest => exact ⟨h.1, ihbody h.2.1, ihrest h.2.2⟩
  | launch kernel body rest ihbody ihrest => exact ⟨fun v => ihbody v (h.1 v), ihrest h.2⟩
  | loop extent body rest ihbody ihrest => exact ⟨fun v => ihbody v (h.1 v), ihrest h.2⟩
  | call step args rest ih => exact ih h

namespace Trace

variable {α : Type} {id other : ContextId}

/-- A computation keeps the setting of the world, and it leaves the context alone unless it is the
innermost active one. -/
def Bypasses (other : ContextId) (α : Type) (x : Trace α) (w : World) : Prop :=
  (x.runOn w).2.setting = w.setting ∧
    (w.thread.current ≠ some other → (x.runOn w).2.context? other = w.context? other)

/-- A computation keeps the thread, and it leaves the context alone unless it is active. -/
def Spares (other : ContextId) (x : Trace α) : Prop :=
  ∀ w : World, other ∉ w.thread.active →
    (x.runOn w).2.context? other = w.context? other ∧ (x.runOn w).2.thread = w.thread

namespace Bypasses

theorem of_snd_eq {x : Trace α} {w : World} (h : (x.runOn w).2 = w) : Bypasses other α x w :=
  ⟨congrArg World.setting h, fun _ => congrArg (·.context? other) h⟩

theorem of_appends {x : Trace α} {w w' : World} {result : Except Error α}
    {texts : List (Nat × String)} (hrun : x.runOn w = (result, w')) (h : w.Appends texts w') :
    Bypasses other α x w := by
  rw [Bypasses, hrun]
  exact ⟨h.setting, fun _ => h.context? other⟩

/-- An operation on another context. -/
theorem onContext (hne : id ≠ other) (operation : Context → ThreadId → Context.Attempt α)
    (w : World) : Bypasses other α (onContext id operation) w := by
  cases hc : w.context? id with
  | none => exact of_snd_eq (by rw [runOn_onContext_missing hc])
  | some c =>
      rw [Bypasses, runOn_onContext hc]
      exact ⟨rfl, fun _ => World.context?_put_ne w hne _⟩

theorem dumpClosed (kernel : String) (tree : Tree) (w : World) :
    Bypasses other Unit (dumpClosed kernel tree) w := by
  obtain ⟨w₁, happends, hrun⟩ := runOn_dumpClosed kernel tree w
  rw [Bypasses, hrun]
  split
  · exact ⟨happends.setting, fun _ => happends.context? other⟩
  · have hprints := happends.trans (.print w₁ (Diagram.flatten tree).dot)
    exact ⟨hprints.setting, fun _ => hprints.context? other⟩
  · next directory _ _ =>
    rw [runOn_writeDiagram, Disk.write_eq]
    obtain _ | ⟨name⟩ | _ := w₁.disk.resolve (directory ++ "/" ++ kernel ++ ".dot") <;>
      exact ⟨happends.setting, fun _ => happends.context? other⟩

/-- All parts of programs leave contexts alone that are not the innermost active one. -/
theorem modular (other : ContextId) : Modular (Bypasses other) where
  setting h := h.1
  ofExcept result w := of_snd_eq (by rw [runOn_ofExcept])
  bind {_ _ x f w} hx hf := by
    rw [Bypasses, runOn_bind]
    rw [Bypasses] at hx
    cases hrun : x.runOn w with
    | mk result w' =>
        rw [hrun] at hx
        cases result with
        | error e => exact hx
        | ok a =>
            have hrest := hf a w' hrun
            refine ⟨hrest.1.trans hx.1, fun hne => ?_⟩
            have hne' : w'.thread.current ≠ some other := by
              rwa [World.thread_eq_of_setting hx.1]
            exact (hrest.2 hne').trans (hx.2 hne)
  target w := of_snd_eq rfl
  context _ := of_snd_eq (by rw [runOn_context_eq])
  onContext {_ w id} hcurrent operation := by
    by_cases hother : id = other
    · subst hother
      refine ⟨?_, fun hne => absurd hcurrent hne⟩
      cases hc : w.context? id with
      | none => rw [runOn_onContext_missing hc]
      | some c => rw [runOn_onContext hc]; rfl
    · exact onContext hother operation w
  logScope event n w := by
    obtain ⟨w', hrun, happends⟩ := runOn_logScope_appends event n w
    exact of_appends hrun happends
  dumpClosed := dumpClosed

/-- Inside a guard of another context, the context is not the innermost active one either. -/
theorem around {guard : GuardScope} {x : Trace Unit} {w : World}
    (hguard : guard.context? ≠ some other) (hx : ∀ w', Bypasses other Unit x w') :
    Bypasses other Unit (guard.around x) w := by
  rw [Bypasses, guard.runOn_around_eq fun w' => (hx w').1]
  cases hinside : guard.inside w.thread with
  | none => exact ⟨rfl, fun _ => rfl⟩
  | some thread =>
      obtain ⟨hsetting, hcontext⟩ := hx { w with thread := thread }
      refine ⟨congrArg (fun v : World => { v with thread := w.thread }) hsetting, fun hne => ?_⟩
      refine hcontext ?_
      have hcurrent : thread.current = _ := GuardScope.current_inside hinside
      change thread.current ≠ some other
      rw [hcurrent]
      cases hguarded : guard.context? with
      | none => rwa [Option.none_or]
      | some id => rwa [Option.some_or, ← hguarded]

end Bypasses

end Trace

/-- A program does not touch a context that is not the innermost active one, unless a guard of the
program or of one of its steps makes the context active. -/
theorem Bodies.run_bypasses {bodies : Bodies} {other : ContextId} (hbodies : bodies.Avoid other)
    (depth : Nat) {p : GuardedProgram} (hp : p.Avoids other) (w : World) :
    Trace.Bypasses other Unit (bodies.run depth p) w :=
  (Trace.Bypasses.modular other).run (fun _ _ _ hguard hx => .around hguard hx)
    (fun _ _ _ _ hnext => hnext) (fun function args => (hbodies function args).obeys) depth
    hp.obeys w

/-- A program does not touch a context that is not active, unless a guard of the program or of one
of its steps makes the context active. -/
theorem Bodies.run_spares {bodies : Bodies} {other : ContextId} (hbodies : bodies.Avoid other)
    (depth : Nat) {p : GuardedProgram} (hp : p.Avoids other) :
    Trace.Spares other (bodies.run depth p) := by
  intro w hactive
  obtain ⟨hsetting, hcontext⟩ := bodies.run_bypasses hbodies depth hp w
  exact ⟨hcontext fun hcurrent => hactive (List.mem_of_mem_head? hcurrent),
    World.thread_eq_of_setting hsetting⟩

end TileTrace
