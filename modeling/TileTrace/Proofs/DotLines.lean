import TileTrace.Proofs.DotText

/-!
# Quoted strings and lines of a DOT text

A label may hold anything, also text that looks like a statement. What keeps it
apart from the statements is that a DOT text falls into quoted strings and the
rest, and that no label brings a quotation mark or a line break of its own. So
the quoted strings of the text of a diagram are its labels, and its lines are
its statements.
-/

namespace TileTrace

/-! ## Lines -/

/-- A statement without its line break. -/
def statement (line : String) : List Char :=
  line.toList.dropLast

/-- A text that is one line: it has one line break, at its end. -/
def IsLine (line : String) : Prop :=
  line.toList = statement line ++ ['\n'] ∧ '\n' ∉ statement line

theorem IsLine.of_append {line : String} (text : List Char)
    (h : line.toList = text ++ ['\n']) (hbreak : '\n' ∉ text) : IsLine line := by
  have hstatement : statement line = text := by rw [statement, h, List.dropLast_concat]
  exact ⟨hstatement ▸ h, hstatement ▸ hbreak⟩

/-- Statements that are one line each are the lines of their text. -/
theorem pieces_flatMap_line {α : Type} {line : α → String} (h : ∀ a, IsLine (line a)) (as : List α)
    (rest : List Char) : pieces '\n' (as.flatMap (fun a => (line a).toList) ++ rest) =
      as.map (fun a => statement (line a)) ++ pieces '\n' rest := by
  induction as with
  | nil => rfl
  | cons a as ih =>
      rw [List.flatMap_cons, (h a).1, List.append_assoc, List.append_assoc, List.singleton_append,
        pieces_append_separator, pieces_eq_singleton (h a).2, ih]
      rfl

namespace Diagram

theorem newline_notMem_escaped (label : List Char) : '\n' ∉ label.flatMap escaped := by
  intro h
  obtain ⟨c, -, hc⟩ := List.mem_flatMap.1 h
  unfold escaped at hc
  split at hc
  · simp at hc
  split at hc
  · simp at hc
  split at hc
  · simp at hc
  · next hnewline => exact hnewline (List.mem_singleton.1 hc).symm

theorem newline_notMem_quoted (label : String) : '\n' ∉ (quoted label).toList := by
  rw [toList_quoted]
  simpa using newline_notMem_escaped label.toList

theorem newline_notMem_ofInt (n : Int) : '\n' ∉ (Decimal.ofInt n).toList :=
  fun h => absurd (Decimal.isNumeralChar_of_mem h) (by decide)

theorem isLine_nodeLine (node : DrawnNode) : IsLine (nodeLine node) := by
  refine .of_append (("  " ++ Decimal.ofInt node.id ++ " [label=" ++ quoted node.label ++
    ", shape=" ++ shapeName node.shape ++ ", fontsize=10];").toList) (by simp [nodeLine]) ?_
  have hshape : '\n' ∉ (shapeName node.shape).toList := by cases node.shape <;> decide
  simp [newline_notMem_ofInt, newline_notMem_quoted, hshape]

theorem isLine_edgeLine (edge : DrawnEdge) : IsLine (edgeLine edge) := by
  have hend : IsLine (edgeEnd edge.label edge.constraint) := by
    cases edge.label with
    | none => cases edge.constraint <;> exact ⟨by decide, by decide⟩
    | some label =>
        have hlabel : IsLine (labelEnd edge.constraint) := by
          cases edge.constraint <;> exact ⟨by decide, by decide⟩
        refine .of_append ((" [label=" ++ quoted label).toList ++
          statement (labelEnd edge.constraint)) (by simp [edgeEnd, hlabel.1]) ?_
        simp [newline_notMem_quoted, hlabel.2]
  refine .of_append (("  " ++ Decimal.ofInt edge.start ++ " -> " ++
    Decimal.ofInt edge.target).toList ++ statement (edgeEnd edge.label edge.constraint))
    (by simp [edgeLine_eq, hend.1]) ?_
  simp [newline_notMem_ofInt, hend.2]

/-! ## Quoted strings -/

/-- The quoted strings of a text, when the given one has been read up to here. Inside of a string
a backslash takes the next character with it, and the next quotation mark ends the string. A
string that does not end is an error. -/
def scan : Option (List Char) → List Char → Option (List (List Char))
  | none, [] => some []
  | some _, [] => none
  | none, c :: rest => if c = '"' then scan (some []) rest else scan none rest
  | some read, '\\' :: c :: rest => scan (some (read ++ ['\\', c])) rest
  | some read, c :: rest =>
      if c = '"' then (scan none rest).map (read :: ·) else scan (some (read ++ [c])) rest

/-- The quoted strings of a DOT text, as they are written. -/
def quotedStrings (text : String) : Option (List (List Char)) :=
  scan none text.toList

/-- These are the quoted strings of a text, whatever follows. -/
def Strings (text : List Char) (found : List (List Char)) : Prop :=
  ∀ rest, scan none (text ++ rest) = (scan none rest).map (found ++ ·)

theorem Strings.append {text text' : List Char} {found found' : List (List Char)}
    (h : Strings text found) (h' : Strings text' found') :
    Strings (text ++ text') (found ++ found') := by
  intro rest
  rw [List.append_assoc, h, h', Option.map_map]
  congr 1
  funext others
  simp

/-- A text without quotation marks has no quoted strings. -/
theorem Strings.of_notMem {text : List Char} (h : '"' ∉ text) : Strings text [] := by
  intro rest
  induction text with
  | nil => simp
  | cons c text ih =>
      rw [List.mem_cons, not_or] at h
      rw [List.cons_append, scan, if_neg (Ne.symm h.1), ih h.2]

theorem Strings.flatMap {α : Type} {write : α → List Char} {found : α → List (List Char)}
    (h : ∀ a, Strings (write a) (found a)) (as : List α) :
    Strings (as.flatMap write) (as.flatMap found) := by
  induction as with
  | nil => exact .of_notMem List.not_mem_nil
  | cons a as ih => exact (h a).append ih

/-- A character of a label does not end the string. -/
theorem scan_escaped (read rest : List Char) (c : Char) :
    scan (some read) (escaped c ++ rest) = scan (some (read ++ escaped c)) rest := by
  unfold escaped
  split
  · rfl
  split
  · rfl
  split
  · rfl
  · next hquote hbackslash _ => simp [scan, hquote, hbackslash]

theorem scan_label (read label rest : List Char) :
    scan (some read) (label.flatMap escaped ++ '"' :: rest) =
      (scan none rest).map ((read ++ label.flatMap escaped) :: ·) := by
  induction label generalizing read with
  | nil => simp [scan]
  | cons c label ih =>
      rw [List.flatMap_cons, List.append_assoc, scan_escaped, ih, List.append_assoc]

/-- A quoted label is one string: it has no bare quotation mark. -/
theorem strings_quoted (label : String) :
    Strings (quoted label).toList [label.toList.flatMap escaped] := by
  intro rest
  rw [toList_quoted, List.cons_append, scan, if_pos rfl, List.append_assoc, List.singleton_append,
    scan_label]
  rfl

theorem strings_nodeLine (node : DrawnNode) :
    Strings (nodeLine node).toList [node.label.toList.flatMap escaped] := by
  have hid : '"' ∉ (Decimal.ofInt node.id).toList :=
    fun h => absurd (Decimal.isNumeralChar_of_mem h) (by decide)
  have hshape : '"' ∉ (shapeName node.shape).toList := by cases node.shape <;> decide
  have hbefore : Strings ("  " ++ Decimal.ofInt node.id ++ " [label=").toList [] :=
    .of_notMem (by simp [hid])
  have hbehind : Strings (", shape=" ++ shapeName node.shape ++ ", fontsize=10];\n").toList [] :=
    .of_notMem (by simp [hshape])
  have hline := (hbefore.append (strings_quoted node.label)).append hbehind
  simpa [nodeLine] using hline

theorem strings_edgeLine (edge : DrawnEdge) :
    Strings (edgeLine edge).toList
      (edge.label.toList.map fun label => label.toList.flatMap escaped) := by
  have hnumeral (n : Int) : '"' ∉ (Decimal.ofInt n).toList :=
    fun h => absurd (Decimal.isNumeralChar_of_mem h) (by decide)
  have hbefore : Strings ("  " ++ Decimal.ofInt edge.start ++ " -> " ++
      Decimal.ofInt edge.target).toList [] :=
    .of_notMem (by simp [hnumeral])
  have hend : Strings (edgeEnd edge.label edge.constraint).toList
      (edge.label.toList.map fun label => label.toList.flatMap escaped) := by
    cases edge.label with
    | none => cases edge.constraint <;> exact .of_notMem (by decide)
    | some label =>
        have hlabel : Strings " [label=".toList [] := .of_notMem (by decide)
        have hbehind : Strings (labelEnd edge.constraint).toList [] := by
          cases edge.constraint <;> exact .of_notMem (by decide)
        simpa [edgeEnd] using (hlabel.append (strings_quoted label)).append hbehind
  simpa [edgeLine_eq] using hbefore.append hend

theorem quote_notMem_closing (ids : List Int) : '"' ∉ closing ids := by
  have hnumeral (n : Int) : '"' ∉ (Decimal.ofInt n).toList :=
    fun h => absurd (Decimal.isNumeralChar_of_mem h) (by decide)
  by_cases h : ids = []
  · rw [h, closing_nil]
    decide
  · rw [closing_of_ne_nil h]
    simp [rankItem, hnumeral]

/-- A part of a text that stands inside a quoted string without ending it, and on one line. -/
def Enclosed (text : List Char) : Prop :=
  '\n' ∉ text ∧ ∀ rest, scan (some []) (text ++ '"' :: rest) = (scan none rest).map (text :: ·)

theorem enclosed_escaped (label : List Char) : Enclosed (label.flatMap escaped) :=
  ⟨newline_notMem_escaped label, scan_label [] label⟩

/-- The labels of a diagram, in the order of its text. -/
def labels (diagram : Diagram) : List String :=
  diagram.nodes.map (·.label) ++ diagram.edges.flatMap (·.label.toList)

/-- The quoted strings of the attributes that all nodes share. -/
def sharedAttributes : List String :=
  ["rounded,filled", "#a5d8ff"]

/-- The line of the attributes that all nodes share. -/
theorem strings_nodeAttributes :
    Strings "  node [shape=box, style=\"rounded,filled\", fillcolor=\"#a5d8ff\"];\n".toList
      (sharedAttributes.map fun label => label.toList.flatMap escaped) := by
  have hparts : "  node [shape=box, style=\"rounded,filled\", fillcolor=\"#a5d8ff\"];\n".toList =
      "  node [shape=box, style=".toList ++ (quoted "rounded,filled").toList ++
        ", fillcolor=".toList ++ (quoted "#a5d8ff").toList ++ "];\n".toList := by
    decide +kernel
  rw [hparts]
  exact (((Strings.of_notMem (by decide)).append (strings_quoted _)).append
    (.of_notMem (by decide))).append (strings_quoted _) |>.append (.of_notMem (by decide))

theorem strings_dotHeader : Strings dotHeader.toList
    (sharedAttributes.map fun label => label.toList.flatMap escaped) := by
  have hgraph : Strings "digraph kernel \x7b\n".toList [] := .of_notMem (by decide)
  have hrankdir : Strings "  rankdir=LR;\n".toList [] := .of_notMem (by decide)
  have hsplines : Strings "  splines=spline;\n".toList [] := .of_notMem (by decide)
  have hnodesep : Strings "  nodesep=0.8;\n".toList [] := .of_notMem (by decide)
  have hranksep : Strings "  ranksep=0.8;\n".toList [] := .of_notMem (by decide)
  have hedge : Strings "  edge [arrowsize=0.7];\n".toList [] := .of_notMem (by decide)
  have hbehind {a b : String} {found found' : List (List Char)} (h : Strings a.toList found)
      (h' : Strings b.toList found') : Strings (a ++ b).toList (found ++ found') := by
    rw [String.toList_append]
    exact h.append h'
  exact hbehind (hbehind (hbehind (hbehind (hbehind (hbehind hgraph hrankdir) hsplines) hnodesep)
    hranksep) strings_nodeAttributes) hedge

/-- The quoted strings of the text of a diagram are its labels, with backslashes. -/
theorem quotedStrings_dot (diagram : Diagram) : quotedStrings diagram.dot =
    some ((sharedAttributes ++ diagram.labels).map fun label => label.toList.flatMap escaped) := by
  have hnodes := Strings.flatMap strings_nodeLine diagram.nodes
  have hedges := Strings.flatMap strings_edgeLine diagram.edges
  have hclosing := Strings.of_notMem (quote_notMem_closing diagram.sameRank)
  have hdot := strings_dotHeader.append (hnodes.append (hedges.append hclosing))
  have hscan := hdot []
  rw [← toList_dot, List.append_nil, ← List.map_eq_flatMap] at hscan
  rw [quotedStrings, hscan]
  simp [labels, scan, List.map_flatMap]

/-! ## The whole text -/

/-- The lines of the text of a diagram. -/
theorem pieces_dot (diagram : Diagram) : pieces '\n' diagram.dot.toList =
    pieces '\n' dotHeader.toList.dropLast ++
      diagram.nodes.map (fun node => statement (nodeLine node)) ++
      diagram.edges.map (fun edge => statement (edgeLine edge)) ++
      pieces '\n' (closing diagram.sameRank) := by
  have hheader : dotHeader.toList = dotHeader.toList.dropLast ++ ['\n'] := by
    -- The front stays closed, because reading all of the header off takes long.
    obtain ⟨front, hfront⟩ : ∃ front, dotHeader = front ++ "  edge [arrowsize=0.7];\n" := ⟨_, rfl⟩
    have hlast : "  edge [arrowsize=0.7];\n".toList =
        "  edge [arrowsize=0.7];".toList ++ ['\n'] := by
      decide
    rw [hfront, String.toList_append, hlast, ← List.append_assoc, List.dropLast_concat]
  rw [toList_dot, hheader, List.append_assoc, List.singleton_append, pieces_append_separator,
    pieces_flatMap_line isLine_nodeLine, pieces_flatMap_line isLine_edgeLine]
  simp

/-- The text of a diagram loses nothing that the diagram shows, whatever its numbers and labels
are. It is well formed: its quoted strings are the labels, and none of them holds a bare quotation
mark or a line break. Each statement of a node or an edge is one line. -/
theorem dot_lossless (d e : Diagram) :
    (d.dot = e.dot ↔
      d.nodes.map DrawnNode.content = e.nodes.map DrawnNode.content ∧ d.edges = e.edges ∧
        d.sameRank = e.sameRank) ∧
    (∃ strings, quotedStrings d.dot = some strings ∧
      strings = (sharedAttributes ++ d.labels).map (fun label => label.toList.flatMap escaped) ∧
      ∀ text ∈ strings, Enclosed text) ∧
    (∀ node ∈ d.nodes, IsLine (nodeLine node)) ∧ (∀ edge ∈ d.edges, IsLine (edgeLine edge)) ∧
    pieces '\n' d.dot.toList =
      pieces '\n' dotHeader.toList.dropLast ++
        d.nodes.map (fun node => statement (nodeLine node)) ++
        d.edges.map (fun edge => statement (edgeLine edge)) ++
        pieces '\n' (closing d.sameRank) := by
  refine ⟨dot_eq_iff d e, ⟨_, quotedStrings_dot d, rfl, ?_⟩, fun node _ => isLine_nodeLine node,
    fun edge _ => isLine_edgeLine edge, pieces_dot d⟩
  intro text htext
  obtain ⟨label, -, rfl⟩ := List.mem_map.1 htext
  exact enclosed_escaped label.toList

end Diagram
end TileTrace
