import TileTrace.Proofs.Atomicity

/-!
# Print-outs

What is printed and written when scopes open and close and when a kernel is
closed, as worlds: `runOn_logScope_eq`, `runOn_writeDiagram`, and
`runOn_dumpClosed`. A program changes contexts, print-outs, and files, and the
rest of a world is its setting. `World.Appends` says that texts are printed and
nothing else changes. The setting alone decides where a text is printed and
whether a file can be written.
-/

namespace TileTrace

namespace Disk

/-- The kept files after a file was written over an earlier one of its name. -/
def keep (files : List (String × String)) (file : String × String) : List (String × String) :=
  file :: files.filter (·.1 ≠ file.1)

/-- A disk with no kept files. -/
def cleared (disk : Disk) : Disk :=
  { disk with files := [] }

/-- A path leads through directories only. -/
theorem resolve_cleared (disk : Disk) (path : String) :
    disk.cleared.resolve path = disk.resolve path := by
  have hfollow (directory : Directory) (components : List String) :
      disk.cleared.follow directory components = disk.follow directory components := by
    induction components generalizing directory with
    | nil => rfl
    | cons component components ih =>
        cases components with
        | nil => rfl
        | cons next components =>
            simp only [follow, ih]
            rfl
  unfold resolve
  simp only [hfollow]
  rfl

/-- Writing a file finds its place without a look at the files. -/
theorem write_eq (disk : Disk) (path content : String) :
    disk.write path content =
      (disk.resolve path).map fun
        | .file name => { disk with files := keep disk.files (name, content) }
        | .elsewhere => disk := by
  unfold write
  obtain _ | ⟨name⟩ | _ := disk.resolve path <;> rfl

end Disk

namespace World

/-- What no program changes: everything but contexts, print-outs, and files. -/
def setting (w : World) : World :=
  { w with contexts := #[], printed := #[], disk := w.disk.cleared }

section Setting

variable {w w' : World} (h : w'.setting = w.setting)
include h

theorem thread_eq_of_setting : w'.thread = w.thread := by
  have hthread := congrArg World.thread h
  exact hthread

theorem dump_eq_of_setting : w'.dump = w.dump := by
  have hdump := congrArg World.dump h
  exact hdump

/-- The setting says where a path leads. -/
theorem resolve_eq_of_setting (path : String) : w'.disk.resolve path = w.disk.resolve path := by
  have hdisk := congrArg World.disk h
  have hcleared : w'.disk.cleared = w.disk.cleared := hdisk
  rw [← Disk.resolve_cleared, hcleared, Disk.resolve_cleared]

/-- The setting says which context is recorded into. -/
theorem target?_eq_of_setting : w'.target? = w.target? := by
  have htarget := congrArg World.target? h
  exact htarget

end Setting

/-- The context that is recorded into is the innermost active one. -/
theorem current_of_target? {w : World} {id : ContextId} (h : w.target? = some id) :
    w.thread.current = some id := by
  rw [target?] at h
  split at h
  · exact h
  · cases h

/-- What is kept of a text that is printed. -/
def copies (w : World) (text : String) : List (Nat × String) :=
  match w.thread.stream with
  | .console => []
  | .buffer number => [(number, text)]

/-- The texts are printed from the first world to the second, and nothing else changes. -/
structure Appends (texts : List (Nat × String)) (w w' : World) : Prop where
  setting : w'.setting = w.setting
  contexts : w'.contexts = w.contexts
  disk : w'.disk = w.disk
  printed : w'.printed.toList = w.printed.toList ++ texts

namespace Appends

variable {w w' w'' : World} {texts more : List (Nat × String)}

theorem refl (w : World) : Appends [] w w :=
  ⟨rfl, rfl, rfl, (List.append_nil _).symm⟩

theorem trans (h : Appends texts w w') (h' : Appends more w' w'') :
    Appends (texts ++ more) w w'' :=
  ⟨h'.setting.trans h.setting, h'.contexts.trans h.contexts, h'.disk.trans h.disk,
    by rw [h'.printed, h.printed, List.append_assoc]⟩

theorem context? (h : Appends texts w w') (id : ContextId) : w'.context? id = w.context? id := by
  rw [World.context?, h.contexts, World.context?]

theorem print (w : World) (text : String) : Appends (w.copies text) w (w.print text) := by
  unfold copies World.print
  cases w.thread.stream with
  | console => exact .refl w
  | buffer number => exact ⟨rfl, rfl, rfl, by simp⟩

end Appends

/-- What is printed of an event of a scope or a step. -/
def eventCopies (w : World) (event : String) (n : Node) : List (Nat × String) :=
  if w.dump.has .scopeTrace then w.copies ("[scope] " ++ event ++ " " ++ n.text ++ "\n") else []

/-- What is printed of the lines of a closed kernel. -/
def treeCopies (w : World) (tree : Tree) : List (Nat × String) :=
  if w.dump.has .kernelGraph then w.copies (String.join (tree.lines.map (· ++ "\n"))) else []

end World

namespace Trace

open World

/-- Logging an event prints its line, if that is asked for. -/
theorem runOn_logScope_appends (event : String) (n : Node) (w : World) :
    ∃ w', (logScope event n).runOn w = (.ok (), w') ∧ w.Appends (w.eventCopies event n) w' := by
  rw [logScope, runOn_bind, runOn_get]
  dsimp only
  unfold eventCopies
  split
  · exact ⟨_, rfl, .print w _⟩
  · exact ⟨w, rfl, .refl w⟩

theorem runOn_writeDiagram (tree : Tree) (path : String) (w : World) :
    (writeDiagram tree path).runOn w =
      match w.disk.write path (Diagram.flatten tree).dot with
      | some disk => (.ok (), { w with disk := disk })
      | none => (.error (.diagramFile path), w) := by
  rw [writeDiagram, runOn_bind, runOn_get]
  dsimp only
  cases w.disk.write path (Diagram.flatten tree).dot <;> rfl

/-- A closed kernel is printed as a tree first, and then its diagram is printed or written. -/
theorem runOn_dumpClosed (kernel : String) (tree : Tree) (w : World) :
    ∃ w₁, w.Appends (w.treeCopies tree) w₁ ∧
      (dumpClosed kernel tree).runOn w =
        match w.dump.enabled .kernelDiagram with
        | none => (.ok (), w₁)
        | some [] => (.ok (), w₁.print (Diagram.flatten tree).dot)
        | some (directory :: _) =>
            (writeDiagram tree (directory ++ "/" ++ kernel ++ ".dot")).runOn w₁ := by
  -- The options are looked up again for the diagram. They are still the same.
  have hdiagram (w₁ : World) (hsetting : w₁.setting = w.setting) :
      (do
        match (← get).dump.enabled .kernelDiagram with
        | none => pure ()
        | some [] => print (Diagram.flatten tree).dot
        | some (directory :: _) =>
            writeDiagram tree (directory ++ "/" ++ kernel ++ ".dot") : Trace Unit).runOn w₁ =
      match w.dump.enabled .kernelDiagram with
      | none => (.ok (), w₁)
      | some [] => (.ok (), w₁.print (Diagram.flatten tree).dot)
      | some (directory :: _) =>
          (writeDiagram tree (directory ++ "/" ++ kernel ++ ".dot")).runOn w₁ := by
    rw [runOn_bind, runOn_get, ← dump_eq_of_setting hsetting]
    dsimp only
    split <;> rfl
  rw [dumpClosed, runOn_bind, runOn_get]
  dsimp only
  unfold treeCopies
  split
  · have hprints := Appends.print w (String.join (tree.lines.map (· ++ "\n")))
    exact ⟨_, hprints, (runOn_bind _ _ w).trans (hdiagram _ hprints.setting)⟩
  · exact ⟨w, .refl w, hdiagram w rfl⟩

end Trace

end TileTrace
