import TileTrace.Proofs.Freezing
import TileTrace.Proofs.PrintOuts

/-!
# Closing kernels

Kernels are closed one after the other, in the order of their launches: only the
latest kernel can be open, which `Context.IsSequential` says and every operation
keeps. `Operation.act_outcome` is the main lemma. It says what an operation does
to the closed kernels of a context and to the world around it: it closes no
kernel, and prints at most lines of the scope trace, or it closes the open kernel
and then prints it.
-/

namespace TileTrace

namespace Context

/-- The kernels that are not open, in the order of their launches. -/
def closedKernels (c : Context) : List NodeId :=
  c.kernels.filter fun k => c.scope.all fun scope => scope.kernel ≠ k

/-- The only kernel that may be open is the latest one. -/
structure IsSequential (c : Context) : Prop where
  arranged : c.IsArranged
  latest : ∀ scope, c.scope = some scope → c.kernels.getLast? = some scope.kernel

variable {c d : Context} {k : NodeId}

theorem isSequential_fresh (id : ContextId) : (fresh id).IsSequential :=
  ⟨isArranged_fresh id, nofun⟩

/-- All kernels are closed while none is open. -/
theorem closedKernels_idle (h : c.scope = none) : c.closedKernels = c.kernels := by
  rw [closedKernels, h]
  exact List.filter_eq_self.2 fun k _ => rfl

namespace IsArranged

variable (h : c.IsArranged)
include h

theorem mem_closedKernels : k ∈ c.closedKernels ↔ c.IsClosed k := by
  rw [closedKernels, List.mem_filter, h.mem_kernels]
  have hopen : (c.scope.all fun scope => scope.kernel ≠ k) = true ↔
      ∀ scope, c.scope = some scope → scope.kernel ≠ k := by
    cases c.scope <;> simp
  rw [hopen]
  exact ⟨fun ⟨hkernel, hopen⟩ => ⟨hkernel, hopen⟩, fun ⟨hkernel, hopen⟩ => ⟨hkernel, hopen⟩⟩

/-- Every kernel is counted once. -/
theorem nodup_kernels : c.kernels.Nodup := by
  have hsub : c.kernels.Sublist (c.nodes.toList.map (·.id)) := List.filter_sublist.map _
  rw [h.map_id] at hsub
  exact List.nodup_range.sublist hsub

/-- A closed kernel has a tree. -/
theorem exists_tree (hclosed : c.IsClosed k) : ∃ tree, c.tree? k = some tree := by
  obtain ⟨kernel, hk, -⟩ := hclosed.isKernel
  obtain ⟨tree, htree, -⟩ := h.isRecord hk
  exact ⟨tree, htree⟩

/-- A closed kernel that is the same in another context has the same tree and name there. -/
theorem tree?_of_sameBelow (hd : d.IsArranged) (hclosed : c.IsClosed k) (hsame : SameBelow k c d) :
    d.tree? k = c.tree? k ∧ d.kernelName k = c.kernelName k := by
  obtain ⟨kernel, hk, hkernel⟩ := hclosed.isKernel
  have hself : k ∈ c.lineage kernel :=
    (h.rootOf_eq_iff hk hk hkernel).1 (h.rootOf_root hk ((h.kernel_iff hk).1 hkernel))
  refine ⟨(hsame.tree? h hd hk hself).symm, ?_⟩
  rw [kernelName, kernelName, hk, ((hsame k kernel).1 ⟨hk, hself⟩).1]

end IsArranged

/-- While a kernel is open, the others are closed. -/
theorem IsSequential.kernels_eq (h : c.IsSequential) {scope : Scope}
    (hscope : c.scope = some scope) :
    c.kernels = c.closedKernels ++ [scope.kernel] := by
  obtain ⟨earlier, hearlier⟩ := List.getLast?_eq_some_iff.1 (h.latest scope hscope)
  have hnodup := h.arranged.nodup_kernels
  rw [hearlier, List.nodup_append] at hnodup
  have hclosed : ∀ k ∈ earlier, decide (scope.kernel ≠ k) = true := fun k hk =>
    decide_eq_true (hnodup.2.2 k hk _ List.mem_cons_self).symm
  rw [closedKernels, hscope, hearlier, List.filter_append]
  simp only [Option.all_some]
  rw [List.filter_eq_self.2 hclosed]
  simp

end Context

namespace Operation

open Context

variable {c d : Context} {operation : Operation}

/-- What an operation that succeeds does to the kernels: it opens one, it closes the open one, or
it leaves them as they are. -/
theorem Step.kernels_cases (hstep : Step c operation d) :
    (c.scope = none ∧ ∃ scope, d.scope = some scope ∧ scope.kernel = c.size ∧
      d.kernels = c.kernels ++ [c.size]) ∨
    (operation = .closeKernel ∧ d.scope = none ∧ d.kernels = c.kernels) ∨
    d.scope.map (·.kernel) = c.scope.map (·.kernel) ∧ d.kernels = c.kernels := by
  cases hstep with
  | openKernel name template extent hscope =>
      refine .inl ⟨hscope, _, rfl, rfl, (kernels_of_append (places_withKernel ..)).trans ?_⟩
      rw [length_places]
      rfl
  | openLoop extent scope outer hscope =>
      refine .inr (.inr ⟨by rw [hscope]; rfl, (kernels_of_append (places_withLoop ..)).trans ?_⟩)
      exact List.append_nil _
  | closeLoop scope loop outer hscope => exact .inr (.inr ⟨by rw [hscope]; rfl, rfl⟩)
  | recordStep =>
      refine .inr (.inr ⟨rfl, (kernels_of_append (places_withStep ..)).trans ?_⟩)
      exact List.append_nil _
  | closeKernel => exact .inr (.inl ⟨rfl, rfl, rfl⟩)
  | addKernelInput handle =>
      exact .inr (.inr ⟨rfl, kernels_of_places
        (places_modifyNode _ _ (Node.place_addInput handle))⟩)
  | addKernelOutput handle =>
      exact .inr (.inr ⟨rfl, kernels_of_places
        (places_modifyNode _ _ (Node.place_addOutput handle))⟩)
  | setVisualize => exact .inr (.inr ⟨rfl, kernels_of_places (places_modifyNode _ _ fun _ => rfl)⟩)

/-- An operation that succeeds leaves the latest kernel open, or none. -/
theorem Step.isSequential (h : c.IsSequential) (hstep : Step c operation d) : d.IsSequential := by
  refine ⟨(hstep.arranged h.arranged).1, fun scope hscope => ?_⟩
  obtain ⟨-, new, hnew, hkernel, hkernels⟩ | ⟨-, hnone, -⟩ | ⟨hmap, hkernels⟩ := hstep.kernels_cases
  · obtain rfl := Option.some.inj (hscope.symm.trans hnew)
    rw [hkernels, hkernel, List.getLast?_append]
    rfl
  · cases hscope.symm.trans hnone
  · rw [hscope] at hmap
    obtain ⟨before, hbefore, hsame⟩ := Option.map_eq_some_iff.1 hmap.symm
    rw [hkernels, h.latest before hbefore, hsame]

/-- Only closing a kernel closes one. -/
theorem Step.closedKernels (h : c.IsSequential) (hstep : Step c operation d)
    (hne : operation ≠ .closeKernel) : d.closedKernels = c.closedKernels := by
  obtain ⟨hidle, new, hnew, hkernel, hkernels⟩ | ⟨hclose, -⟩ | ⟨hmap, hkernels⟩ :=
    hstep.kernels_cases
  · have hd := (hstep.isSequential h).kernels_eq hnew
    rw [hkernels, hkernel] at hd
    rw [closedKernels_idle hidle, List.append_cancel_right hd]
  · exact absurd hclose hne
  · have hopen (k : NodeId) : (d.scope.all fun scope => scope.kernel ≠ k) =
        c.scope.all fun scope => scope.kernel ≠ k := by
      have hall (scope? : Option Scope) : (scope?.all fun scope => scope.kernel ≠ k) =
          (scope?.map (·.kernel)).all (· ≠ k) := by
        cases scope? <;> rfl
      rw [hall, hall, hmap]
    rw [Context.closedKernels, Context.closedKernels, hkernels]
    exact List.filter_congr fun k _ => hopen k

end Operation

/-! ## Computations that print at most the scope trace -/

/-- From the first world to the second at most lines of the scope trace are printed. -/
structure World.Traces (w w' : World) : Prop where
  setting : w'.setting = w.setting
  contexts : w'.contexts = w.contexts
  disk : w'.disk = w.disk
  printed : w.dump.has .scopeTrace = false → w'.printed = w.printed

namespace World.Traces

variable {w w' w'' : World}

theorem refl (w : World) : w.Traces w :=
  ⟨rfl, rfl, rfl, fun _ => rfl⟩

theorem trans (h : w.Traces w') (h' : w'.Traces w'') : w.Traces w'' where
  setting := h'.setting.trans h.setting
  contexts := h'.contexts.trans h.contexts
  disk := h'.disk.trans h.disk
  printed hoff := by
    rw [h'.printed (dump_eq_of_setting h.setting ▸ hoff), h.printed hoff]

theorem context? (h : w.Traces w') (id : ContextId) : w'.context? id = w.context? id := by
  rw [World.context?, h.contexts, World.context?]

end World.Traces

namespace Trace

open World

variable {α β : Type} {w : World} {id : ContextId} {c : Context}

theorem runOn_logScope_traces (event : String) (n : Node) (w : World) :
    ∃ w', (logScope event n).runOn w = (.ok (), w') ∧ w.Traces w' := by
  obtain ⟨w', hrun, happends⟩ := runOn_logScope_appends event n w
  refine ⟨w', hrun, happends.setting, happends.contexts, happends.disk, fun hoff => ?_⟩
  have hprinted := happends.printed
  rw [eventCopies, if_neg (by rw [hoff]; exact Bool.false_ne_true), List.append_nil] at hprinted
  exact Array.toList_inj.1 hprinted

/-- A computation prints at most lines of the scope trace. -/
def OnlyTraces (x : Trace α) (w : World) : Prop :=
  w.Traces (x.runOn w).2

namespace OnlyTraces

theorem pure (a : α) : OnlyTraces (pure a : Trace α) w :=
  Traces.refl w

theorem bind {x : Trace α} {f : α → Trace β} (hx : OnlyTraces x w)
    (hf : ∀ a w', OnlyTraces (f a) w') : OnlyTraces (x >>= f) w := by
  rw [OnlyTraces] at hx ⊢
  rw [runOn_bind]
  cases hrun : x.runOn w with
  | mk result w' =>
      rw [hrun] at hx
      cases result with
      | ok a => exact hx.trans (hf a w')
      | error e => exact hx

theorem logScope (event : String) (n : Node) : OnlyTraces (Trace.logScope event n) w := by
  obtain ⟨w', hrun, htraces⟩ := runOn_logScope_traces event n w
  rw [OnlyTraces, hrun]
  exact htraces

/-- After an operation on a context of the world at most the scope trace is printed. -/
theorem onContext_bind (h : w.context? id = some c)
    (operation : Context → ThreadId → Context.Attempt α) {f : α → Trace β}
    (hf : ∀ a w', OnlyTraces (f a) w') :
    (w.put id (operation c w.thread.id).2).Traces ((onContext id operation >>= f).runOn w).2 := by
  rw [runOn_bind, runOn_onContext h operation]
  obtain ⟨result, changed⟩ := operation c w.thread.id
  cases result with
  | ok a => exact hf a _
  | error e => exact .refl _

end OnlyTraces

end Trace

namespace Operation

open Context Trace World

variable {w : World} {id : ContextId} {c : Context}

/-- Whatever an operation does, a closed kernel keeps its tree and its name. -/
theorem perform_keeps (h : c.IsArranged) (operation : Operation) (thread : ThreadId) :
    ∀ k ∈ c.closedKernels, (operation.perform thread c).2.tree? k = c.tree? k ∧
      (operation.perform thread c).2.kernelName k = c.kernelName k := by
  intro k hk
  have hclosed := h.mem_closedKernels.1 hk
  obtain ⟨harranged, -, hsame⟩ := operation.perform_sameBelow h hclosed thread
  exact h.tree?_of_sameBelow harranged hclosed hsame

/-- The other operations print at most the scope trace. -/
theorem act_traces (h : w.context? id = some c) (operation : Operation)
    (hne : operation ≠ .closeKernel) :
    (w.put id (operation.perform w.thread.id c).2).Traces ((operation.act id).runOn w).2 := by
  cases operation with
  | openKernel name template extent =>
      rw [act, runOn_finished_snd]
      refine OnlyTraces.onContext_bind h
        (fun c thread => c.openKernel thread name template extent) fun opened w' => ?_
      exact (OnlyTraces.logScope _ _).bind fun _ _ =>
        (OnlyTraces.logScope _ _).bind fun _ _ => .pure _
  | openLoop extent =>
      rw [act, runOn_finished_snd]
      refine OnlyTraces.onContext_bind h (fun c thread => c.openLoop thread extent) fun _ _ => ?_
      exact (OnlyTraces.logScope _ _).bind fun _ _ => .pure _
  | closeLoop =>
      rw [act, runOn_finished_snd]
      exact OnlyTraces.onContext_bind h (fun c thread => c.closeLoop thread)
        fun _ _ => OnlyTraces.logScope _ _
  | recordStep origin tag requested inputs =>
      rw [act, runOn_finished_snd]
      refine OnlyTraces.onContext_bind h
        (fun c thread => c.recordStep thread origin tag requested inputs) fun _ _ => ?_
      exact (OnlyTraces.logScope _ _).bind fun _ _ => .pure _
  | closeKernel => exact absurd rfl hne
  | addKernelInput handle =>
      rw [act, Trace.addKernelInput,
        runOn_onContext h fun c thread => c.addKernelInput thread handle]
      exact .refl _
  | addKernelOutput handle =>
      rw [act, Trace.addKernelOutput,
        runOn_onContext h fun c thread => c.addKernelOutput thread handle]
      exact .refl _
  | setVisualize node visualize =>
      rw [act, Trace.setVisualize,
        runOn_onContext h fun c thread => c.setVisualize thread node visualize]
      exact .refl _
  | register node =>
      rw [act, runOn_finished_snd, Trace.register,
        runOn_onContext h fun c thread => c.register thread node]
      exact .refl _

/-- A kernel that is closed is printed in the end. -/
theorem act_closeKernel (h : w.context? id = some c) {kernel grid : Node} {d : Context}
    (hclose : c.closeKernel w.thread.id = (.ok (kernel, grid), d)) {tree : Tree}
    (htree : d.tree? kernel.id = some tree) :
    ∃ w₁, (w.put id d).Traces w₁ ∧
      (closeKernel.act id).runOn w = (dumpClosed (d.kernelName kernel.id) tree).runOn w₁ := by
  obtain ⟨w₁, hgrid, htraces₁⟩ := runOn_logScope_traces "close" grid (w.put id d)
  obtain ⟨w₂, hkernel, htraces₂⟩ := runOn_logScope_traces "close" kernel w₁
  have htraces := htraces₁.trans htraces₂
  have hcontext : w₂.context? id = some d := by rw [htraces.context?, context?_put h]
  refine ⟨w₂, htraces, ?_⟩
  rw [act, runOn_bind, Trace.closeKernel, runOn_bind, runOn_onContext h, hclose]
  dsimp only
  rw [runOn_bind, hgrid]
  dsimp only
  rw [runOn_bind, hkernel]
  dsimp only
  rw [runOn_bind, runOn_context hcontext]
  dsimp only
  rw [htree]
  dsimp only
  rw [runOn_bind]
  obtain ⟨_ | _, _⟩ := (dumpClosed (d.kernelName kernel.id) tree).runOn w₂ <;> rfl

/-- What an operation on a context of the world does to the closed kernels: it closes none, and
prints at most the scope trace, or it closes the open kernel and prints it in the end. -/
inductive Outcome (w : World) (id : ContextId) (c d : Context) :
    Except Error Unit × World → Prop where
  | stays (result : Except Error Unit) (w' : World) :
      d.closedKernels = c.closedKernels → (w.put id d).Traces w' → Outcome w id c d (result, w')
  | closes (k : NodeId) (tree : Tree) (w₁ : World) :
      d.closedKernels = c.closedKernels ++ [k] → d.tree? k = some tree →
      (w.put id d).Traces w₁ → Outcome w id c d ((dumpClosed (d.kernelName k) tree).runOn w₁)

/-- Every operation keeps the kernels in order, and prints a kernel exactly when it is closed. -/
theorem act_outcome (h : w.context? id = some c) (hc : c.IsSequential) (operation : Operation) :
    let d := (operation.perform w.thread.id c).2
    d.IsSequential ∧ Outcome w id c d ((operation.act id).runOn w) := by
  intro d
  have hclaimed : (c.claimedBy w.thread.id).IsSequential := ⟨hc.arranged, hc.latest⟩
  have hd : d.IsSequential := perform_cases (P := fun attempt => attempt.2.IsSequential)
    (fun changed hstep => hstep.isSequential hclaimed) (fun _ => hc) fun _ => hclaimed
  refine ⟨hd, ?_⟩
  by_cases hclose : operation = .closeKernel
  · subst hclose
    cases hattempt : c.closeKernel w.thread.id with
    | mk answer changed =>
        have hchanged : d = changed := congrArg Prod.snd hattempt
        cases answer with
        | error e =>
            have hrun : (closeKernel.act id).runOn w = (.error e, w.put id d) := by
              rw [act, runOn_bind, Trace.closeKernel, runOn_bind, runOn_onContext h, hattempt,
                hchanged]
            have hkernels : d.closedKernels = c.closedKernels := by
              obtain hkept | hkept := claimed_error hattempt
              · rw [hchanged, hkept]
              · rw [hchanged, hkept]; rfl
            rw [hrun]
            exact .stays _ _ hkernels (.refl _)
        | ok answer =>
            obtain ⟨scope, hscope, hkernel, -, -, hafter⟩ := closeKernel_ok hattempt
            have hkernels : d.closedKernels = c.closedKernels ++ [scope.kernel] := by
              rw [closedKernels_idle (hchanged ▸ hafter ▸ rfl), ← hc.kernels_eq hscope, hchanged,
                hafter]
              rfl
            have hclosed : d.IsClosed scope.kernel := by
              rw [← hd.arranged.mem_closedKernels, hkernels]
              exact List.mem_append_right _ List.mem_cons_self
            obtain ⟨tree, htree⟩ := hd.arranged.exists_tree hclosed
            rw [← hc.arranged.id_eq hkernel] at hkernels htree
            rw [hchanged] at hkernels htree ⊢
            obtain ⟨w₁, htraces, hrun⟩ := act_closeKernel h hattempt htree
            rw [hrun]
            exact .closes _ tree w₁ hkernels htree htraces
  · refine .stays _ _ ?_ (act_traces h operation hclose)
    refine perform_cases (P := fun attempt => attempt.2.closedKernels = c.closedKernels) ?_
      (fun _ => rfl) fun _ => rfl
    intro changed hstep
    have hkeeps := hstep.closedKernels hclaimed hclose
    exact hkeeps

end Operation

end TileTrace
