import TileTrace.Proofs.KernelClosing
import TileTrace.Proofs.TreeLines

/-!
# Dumps of closed kernels

With dumps of node trees enabled, and nothing else, a kernel is printed when it
is closed, a line for every node. `Dumped` is about whole runs of operations on a
context. `Dumped.output_eq`, the main theorem, says that what was printed is at
every time what the closed kernels look like then, and the text of the context
while no kernel is open.
-/

namespace TileTrace

namespace Context

variable {c : Context}

/-- The lines that a kernel is dumped as. -/
def dumpLines (c : Context) (k : NodeId) : List String :=
  (c.tree? k).elim [] fun tree => tree.lines.map (· ++ "\n")

namespace IsArranged

variable (h : c.IsArranged) {k : NodeId}
include h

/-- A kernel has a line for every node, which is the text of the node, indented by its depth. -/
theorem dumpLines_eq (hk : k ∈ c.kernels) :
    c.dumpLines k = (c.collected k).map fun n => Tree.indented (c.depthOf n) n.text ++ "\n" := by
  obtain ⟨kernel, hkernel, hisKernel⟩ := h.mem_kernels.1 hk
  obtain ⟨tree, htree, -, -⟩ := h.isRecord hkernel
  have hdepth := h.depthOf_root hkernel ((h.kernel_iff hkernel).1 hisKernel)
  rw [dumpLines, collected, htree, Option.elim_some, Tree.lines,
    h.linesAt_eq 0 hkernel htree (by rw [hdepth]), List.map_map]
  rfl

/-- The text of a context consists of the dumps of its kernels. -/
theorem text_eq_dumps : c.text = String.join (c.kernels.flatMap c.dumpLines) := by
  have hdumps : c.kernels.map c.dumpLines = c.kernels.map fun k =>
      (c.collected k).map fun n => Tree.indented (c.depthOf n) n.text ++ "\n" :=
    List.map_congr_left fun k hk => h.dumpLines_eq hk
  rw [h.text_eq, ← h.preorder, List.map_flatMap, List.flatMap_def, List.flatMap_def, hdumps]

end IsArranged

end Context

namespace World

variable {w w' : World} {number : Nat}

/-- All that was printed to the buffer with the given number. -/
def output (number : Nat) (w : World) : String :=
  String.join ((w.printed.toList.filter (·.1 = number)).map (·.2))

/-- Dumps of node trees are enabled and nothing else, and are printed to the buffer with the given
number. -/
structure DumpsGraphs (number : Nat) (w : World) : Prop where
  enabled : ∀ option : DumpOption, w.dump.has option = true ↔ option = .kernelGraph
  stream : w.thread.stream = .buffer number

theorem DumpsGraphs.not_enabled (hw : w.DumpsGraphs number) {option : DumpOption}
    (hne : option ≠ .kernelGraph) : w.dump.has option = false :=
  Bool.eq_false_iff.2 (mt (hw.enabled option).1 hne)

theorem DumpsGraphs.of_setting (hw : w.DumpsGraphs number) (hsetting : w'.setting = w.setting) :
    w'.DumpsGraphs number :=
  ⟨dump_eq_of_setting hsetting ▸ hw.enabled, thread_eq_of_setting hsetting ▸ hw.stream⟩

end World

namespace Operation

open Context World

variable {w : World} {number : Nat} {id : ContextId} {c : Context}

/-- An operation prints the kernel that it closes. -/
theorem act_dumps (hw : w.DumpsGraphs number) (h : w.context? id = some c) (hc : c.IsSequential)
    (operation : Operation) :
    let d := (operation.perform w.thread.id c).2
    ((operation.act id).runOn w).2.DumpsGraphs number ∧ ∃ closed,
      d.closedKernels = c.closedKernels ++ closed ∧
      ((operation.act id).runOn w).2.output number =
        w.output number ++ String.join (closed.flatMap d.dumpLines) := by
  intro d
  have hquiet {w₁ : World} (htraces : (w.put id d).Traces w₁) :
      w₁.DumpsGraphs number ∧ w₁.printed = w.printed :=
    ⟨hw.of_setting htraces.setting, htraces.printed (hw.not_enabled nofun)⟩
  obtain ⟨-, houtcome⟩ := operation.act_outcome h hc
  generalize (operation.act id).runOn w = outcome at houtcome ⊢
  cases houtcome with
  | stays result w' hkernels htraces =>
      obtain ⟨hw', hprinted⟩ := hquiet htraces
      refine ⟨hw', [], by rw [hkernels, List.append_nil], ?_⟩
      rw [output, hprinted]
      exact (String.append_empty).symm
  | closes k tree w₁ hkernels htree htraces =>
      obtain ⟨hw₁, hprinted⟩ := hquiet htraces
      obtain ⟨w₂, happends, hrun⟩ := Trace.runOn_dumpClosed (d.kernelName k) tree w₁
      have hdiagram : w₁.dump.enabled .kernelDiagram = none := by
        have hoff : w₁.dump.has .kernelDiagram = false := hw₁.not_enabled nofun
        rwa [Options.has, Option.isSome_eq_false_iff, Option.isNone_iff_eq_none] at hoff
      rw [hrun, hdiagram]
      refine ⟨hw₁.of_setting happends.setting, [k], hkernels, ?_⟩
      have htext : w₁.treeCopies tree = [(number, String.join (d.dumpLines k))] := by
        rw [treeCopies, if_pos ((hw₁.enabled _).2 rfl), copies, hw₁.stream, dumpLines, htree]
        rfl
      rw [output, happends.printed, htext, hprinted, List.filter_append, List.map_append]
      simp [output]

end Operation

/-! ## Runs -/

/-- The worlds that operations on a new context lead to, of whichever thread, while the dumps of its
kernels are printed to the given buffer, which holds the given text in the beginning. What else
happens leaves the context and the buffer as they are. -/
inductive Dumped (id : ContextId) (number : Nat) (start : String) : World → Prop where
  | fresh (w : World) :
      w.context? id = some (Context.fresh id) → w.DumpsGraphs number → w.output number = start →
      Dumped id number start w
  | operation (w : World) (operation : Operation) :
      Dumped id number start w → Dumped id number start ((operation.act id).runOn w).2
  | elsewhere (w w' : World) :
      Dumped id number start w → w'.context? id = w.context? id → w'.DumpsGraphs number →
      w'.output number = w.output number → Dumped id number start w'

namespace Dumped

open Context World

variable {id : ContextId} {number : Nat} {start : String} {w : World}

/-- Every operation prints the kernel that it closes, and leaves those printed before as they
are. -/
theorem isSequential (h : Dumped id number start w) :
    w.DumpsGraphs number ∧ ∃ c, w.context? id = some c ∧ c.IsSequential ∧
      w.output number = start ++ String.join (c.closedKernels.flatMap c.dumpLines) := by
  induction h with
  | fresh w hfresh hw hstart =>
      exact ⟨hw, _, hfresh, isSequential_fresh id, by rw [hstart]; exact String.append_empty.symm⟩
  | operation w operation _ ih =>
      obtain ⟨hw, c, hcontext, hc, houtput⟩ := ih
      obtain ⟨hw', closed, hkernels, hprints⟩ := operation.act_dumps hw hcontext hc
      obtain ⟨hd, -⟩ := operation.act_outcome hcontext hc
      refine ⟨hw', _, (operation.act_context? hcontext).1, hd, ?_⟩
      have hsame : c.closedKernels.map (operation.perform w.thread.id c).2.dumpLines =
          c.closedKernels.map c.dumpLines := by
        refine List.map_congr_left fun k hk => ?_
        rw [dumpLines, (operation.perform_keeps hc.arranged w.thread.id k hk).1, dumpLines]
      rw [hprints, houtput, hkernels, List.flatMap_append, String.join_append, String.append_assoc,
        List.flatMap_def, ← hsame, ← List.flatMap_def]
  | elsewhere w w' _ hcontext hw' hsame ih =>
      rw [hcontext, hsame]
      exact ⟨hw', ih.2⟩

/-- What is printed when kernels are closed is what can be printed later. At every time, the output
is the dumps of all kernels closed so far, in the order of their launches and as they are now, with
a line for every node. While no kernel is open, this is the text of the context. -/
theorem output_eq (h : Dumped id number start w) :
    ∃ c, w.context? id = some c ∧
      (∀ k ∈ c.closedKernels, ∃ tree, c.tree? k = some tree ∧
        c.dumpLines k = tree.lines.map (· ++ "\n") ∧ tree.lines.length = tree.toList.length) ∧
      w.output number = start ++ String.join (c.closedKernels.flatMap c.dumpLines) ∧
      (c.state = .idle → w.output number = start ++ c.text) := by
  obtain ⟨-, c, hcontext, hc, houtput⟩ := h.isSequential
  have harranged := hc.arranged
  refine ⟨c, hcontext, fun k hk => ?_, houtput, fun hidle => ?_⟩
  · have hkernel := (List.mem_filter.1 hk).1
    obtain ⟨tree, htree⟩ := harranged.exists_tree (harranged.mem_closedKernels.1 hk)
    have hdump : c.dumpLines k = tree.lines.map (· ++ "\n") := by rw [dumpLines, htree]; rfl
    have hlength := congrArg List.length (harranged.dumpLines_eq hkernel)
    rw [hdump, List.length_map, List.length_map, collected, htree] at hlength
    exact ⟨tree, htree, hdump, hlength⟩
  · have hscope : c.scope = none := by
      cases hscope : c.scope with
      | none => rfl
      | some scope =>
          obtain ⟨loop, hloop⟩ := harranged.exists_currentLoop hscope
          rw [state, hloop] at hidle
          dsimp only at hidle
          split at hidle <;> cases hidle
    rw [houtput, harranged.text_eq_dumps, closedKernels_idle hscope]

/-- A run can go on with any operations. -/
theorem foldl (h : Dumped id number start w) (operations : List Operation) :
    Dumped id number start
      (operations.foldl (fun w operation => ((operation.act id).runOn w).2) w) := by
  induction operations generalizing w with
  | nil => exact h
  | cons operation operations ih => exact ih (h.operation w operation)

/-- A new context with dumps of node trees enabled. -/
def dumpingWorld : World where
  contexts := #[some (Context.fresh 0)]
  thread := { stream := .buffer 0 }
  dump := Options.none.set .kernelGraph []
  disk := default

/-- Two kernels, the first of which somebody tries to close too early. -/
def twoKernels : List Operation :=
  [.openKernel "copy" .unbound none, .openLoop none, .closeKernel, .closeLoop, .closeKernel,
    .openKernel "copy" .unbound none, .closeKernel]

/-- The kernel that is closed too early is not printed, and all is printed in the end. -/
theorem output_eq_two_kernels :
    ∃ w c, w = twoKernels.foldl (fun w operation => ((operation.act 0).runOn w).2) dumpingWorld ∧
      Dumped 0 0 "" w ∧ w.context? 0 = some c ∧ c.closedKernels = [0, 3] ∧
      w.output 0 = "" ++ c.text := by
  have hfresh : Dumped 0 0 "" dumpingWorld :=
    .fresh _ rfl ⟨fun option => by cases option <;> decide, rfl⟩ rfl
  have hrun := hfresh.foldl twoKernels
  obtain ⟨c, hcontext, -, -, hidle⟩ := hrun.output_eq
  have hend : ((twoKernels.foldl (fun w operation => ((operation.act 0).runOn w).2)
      dumpingWorld).context? 0).map (fun c => (c.closedKernels, c.state)) =
        some ([0, 3], .idle) := by
    decide +kernel
  rw [hcontext, Option.map_some, Option.some.injEq, Prod.mk.injEq] at hend
  exact ⟨_, c, rfl, hrun, hcontext, hend.1, hidle hend.2⟩

end Dumped

end TileTrace
