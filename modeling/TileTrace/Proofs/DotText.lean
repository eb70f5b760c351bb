import TileTrace.Diagram.Dot
import TileTrace.Pieces

/-!
# What a DOT text tells

A DOT text is read from left to right, and everything in it ends where it shows
that it ends: a numeral at the first character that is none of its own, a label
at the first quotation mark without a backslash, a list of statements at the
first statement of another kind. `Tells` is this property of a way of writing.
`Diagram.dot_eq_iff`, put together from one lemma for each part of the text,
says that diagrams with the same text show the same.
-/

namespace TileTrace

/-! ## Texts that tell where they end -/

/-- A text tells what it was written for, as far as `view` goes, and where it ends. -/
def Tells {α β γ : Type} (write : α → List β) (view : α → γ) : Prop :=
  ∀ a b r s, write a ++ r = write b ++ s → view a = view b ∧ r = s

/-- No text of the given kind comes first. -/
def Without {α β : Type} (write : α → List β) (rest : List β) : Prop :=
  ∀ a s, rest ≠ write a ++ s

/-- What can be read back is told. -/
theorem Tells.of_read {α β γ : Type} {write : α → List β} {view : α → γ}
    {read : List β → Option (γ × List β)}
    (h : ∀ a r, read (write a ++ r) = some (view a, r)) : Tells write view := by
  intro a b r s heq
  have hread := (h a r).symm.trans (heq ▸ h b s)
  exact Prod.mk.inj (Option.some.inj hread)

/-- Texts in a row tell what they were written for when another text follows. -/
theorem Tells.flatMap {α β γ : Type} {write : α → List β} {view : α → γ} (h : Tells write view)
    {as bs : List α} {r s : List β} (hr : Without write r) (hs : Without write s)
    (heq : as.flatMap write ++ r = bs.flatMap write ++ s) : as.map view = bs.map view ∧ r = s := by
  induction as generalizing bs with
  | nil =>
      cases bs with
      | nil => exact ⟨rfl, heq⟩
      | cons b bs => exact absurd (by simpa using heq) (hr b (bs.flatMap write ++ s))
  | cons a as ih =>
      cases bs with
      | nil => exact absurd (by simpa using heq.symm) (hs a (as.flatMap write ++ r))
      | cons b bs =>
          simp only [List.flatMap_cons, List.append_assoc] at heq
          obtain ⟨hview, hrest⟩ := h _ _ _ _ heq
          obtain ⟨hviews, hend⟩ := ih hrest
          exact ⟨by rw [List.map_cons, List.map_cons, hview, hviews], hend⟩

/-- A part of a text that ends with the first character of another kind. -/
theorem cut_eq {p : Char → Bool} {a b r s : List Char} {c d : Char} (ha : ∀ x ∈ a, p x = true)
    (hb : ∀ x ∈ b, p x = true) (hc : p c = false) (hd : p d = false)
    (heq : a ++ c :: r = b ++ d :: s) : a = b ∧ c :: r = d :: s := by
  have htake {a r : List Char} {c : Char} (ha : ∀ x ∈ a, p x = true) (hc : p c = false) :
      (a ++ c :: r).takeWhile p = a :=
    (span_append ha (by simpa using hc)).1
  have hab : a = b := by rw [← htake ha hc, heq, htake hb hd]
  subst hab
  exact ⟨rfl, List.append_cancel_left heq⟩

/-- A numeral ends with the first character that is none of its own. -/
theorem numeral_cut {m n : Int} {c d : Char} {r s : List Char}
    (hc : Decimal.isNumeralChar c = false)
    (hd : Decimal.isNumeralChar d = false)
    (heq : (Decimal.ofInt m).toList ++ c :: r = (Decimal.ofInt n).toList ++ d :: s) :
    m = n ∧ c :: r = d :: s := by
  obtain ⟨hnumeral, hrest⟩ := cut_eq (fun _ => Decimal.isNumeralChar_of_mem)
    (fun _ => Decimal.isNumeralChar_of_mem) hc hd heq
  exact ⟨Decimal.ofInt_injective (String.toList_injective hnumeral), hrest⟩

/-- What of a drawn node is written. -/
def DrawnNode.content (node : DrawnNode) : Int × String × Shape :=
  (node.id, node.label, node.shape)

namespace Diagram

/-! ## Quoted labels -/

/-- The character that is written at the start of a label, and the rest. A quotation mark ends the
label. -/
def unescape? : List Char → Option (Char × List Char)
  | '\\' :: 'n' :: rest => some ('\n', rest)
  | '\\' :: c :: rest => some (c, rest)
  | '"' :: _ => none
  | c :: rest => some (c, rest)
  | [] => none

theorem unescape?_escaped (c : Char) (rest : List Char) :
    unescape? (escaped c ++ rest) = some (c, rest) := by
  unfold escaped
  split
  · next h => subst h; rfl
  split
  · next h => subst h; rfl
  split
  · next h => subst h; rfl
  · next hbackslash _ => simp [unescape?, hbackslash]

/-- A quotation mark is no character of a label. -/
theorem without_escaped (rest : List Char) : Without escaped ('"' :: rest) := by
  intro c s heq
  have hread := unescape?_escaped c s
  rw [← heq, unescape?] at hread
  cases hread

theorem toList_quoted (label : String) :
    (quoted label).toList = '"' :: (label.toList.flatMap escaped ++ ['"']) := by
  simp [quoted]

/-- A quoted label ends with the first quotation mark without a backslash. -/
theorem quoted_tells : Tells (fun label => (quoted label).toList) id := by
  intro a b r s heq
  simp only [toList_quoted, List.cons_append, List.append_assoc, List.cons.injEq, true_and,
    List.nil_append] at heq
  obtain ⟨hlabel, hrest⟩ := (Tells.of_read unescape?_escaped).flatMap (without_escaped r)
    (without_escaped s) heq
  rw [List.map_id'' (fun _ => rfl), List.map_id'' (fun _ => rfl)] at hlabel
  exact ⟨String.toList_injective hlabel, (List.cons.inj hrest).2⟩

/-! ## Statements -/

/-- The characters of a node statement. -/
theorem toList_nodeLine (node : DrawnNode) : (nodeLine node).toList =
    ' ' :: ' ' :: ((Decimal.ofInt node.id).toList ++ ' ' :: ("[label=".toList ++
      ((quoted node.label).toList ++ (", shape=".toList ++ ((shapeName node.shape).toList ++
        ", fontsize=10];\n".toList))))) := by
  simp [nodeLine]

/-- A name of a shape is known by its first letter. -/
theorem shapeName_tells : Tells (fun shape => (shapeName shape).toList) id := by
  rintro (_ | _) (_ | _) r s heq <;> simp [shapeName] at heq
  · exact ⟨rfl, heq⟩
  · exact ⟨rfl, heq⟩

/-- What a node statement tells. -/
theorem nodeLine_tells : Tells (fun node => (nodeLine node).toList) DrawnNode.content := by
  intro a b r s heq
  simp only [toList_nodeLine, List.cons_append, List.append_assoc, List.cons.injEq,
    true_and] at heq
  obtain ⟨hid, heq⟩ := numeral_cut (by decide) (by decide) heq
  have heq := List.append_cancel_left (List.cons.inj heq).2
  obtain ⟨hlabel, heq⟩ := quoted_tells _ _ _ _ heq
  obtain ⟨hshape, heq⟩ := shapeName_tells _ _ _ _ (List.append_cancel_left heq)
  exact ⟨Prod.ext_iff.2 ⟨hid, Prod.ext_iff.2 ⟨hlabel, hshape⟩⟩, List.append_cancel_left heq⟩

/-- What comes behind the label of an edge. -/
def labelEnd (constraint : Bool) : String :=
  if constraint then "];\n" else ", constraint=false];\n"

/-- What comes behind the numbers in an edge statement. -/
def edgeEnd : Option String → Bool → String
  | none, constraint => if constraint then ";\n" else " [constraint=false];\n"
  | some label, constraint => " [label=" ++ quoted label ++ labelEnd constraint

theorem edgeLine_eq (edge : DrawnEdge) : edgeLine edge =
    "  " ++ Decimal.ofInt edge.start ++ " -> " ++ Decimal.ofInt edge.target ++
      edgeEnd edge.label edge.constraint := by
  obtain ⟨start, target, label, constraint⟩ := edge
  cases label <;> cases constraint <;>
    simp only [edgeLine, edgeAttributes, edgeEnd, labelEnd, List.nil_append, List.cons_append,
      List.append_nil, if_true, Bool.false_eq_true, if_false, String.intercalate_singleton,
      String.intercalate_cons_cons, String.append_empty, String.append_assoc] <;> rfl

/-- The characters of an edge statement. -/
theorem toList_edgeLine (edge : DrawnEdge) : (edgeLine edge).toList =
    ' ' :: ' ' :: ((Decimal.ofInt edge.start).toList ++ ' ' :: ("-> ".toList ++
      ((Decimal.ofInt edge.target).toList ++ (edgeEnd edge.label edge.constraint).toList))) := by
  simp [edgeLine_eq]

/-- The end of an edge statement has a first character that belongs to no numeral. -/
theorem exists_edgeEnd (label : Option String) (constraint : Bool) :
    ∃ c text, (edgeEnd label constraint).toList = c :: text ∧ Decimal.isNumeralChar c = false := by
  cases label <;> cases constraint <;> simp [edgeEnd] <;> decide

theorem labelEnd_tells : Tells (fun constraint => (labelEnd constraint).toList) id := by
  rintro (_ | _) (_ | _) r s heq <;> simp [labelEnd] at heq
  · exact ⟨rfl, heq⟩
  · exact ⟨rfl, heq⟩

/-- An edge without a label, an edge with an empty one, and edges that do or do not constrain the
layout are all told apart. -/
theorem edgeEnd_tells :
    Tells (fun edge : Option String × Bool => (edgeEnd edge.1 edge.2).toList) id := by
  rintro ⟨_ | label, constraint⟩ ⟨_ | label', constraint'⟩ r s heq
  · cases constraint <;> cases constraint' <;> simp [edgeEnd] at heq <;> exact ⟨rfl, heq⟩
  · cases constraint <;> simp [edgeEnd] at heq
  · cases constraint' <;> simp [edgeEnd] at heq
  · simp only [edgeEnd, String.toList_append, List.append_assoc, List.append_cancel_left_eq] at heq
    obtain ⟨hlabel, heq⟩ := quoted_tells _ _ _ _ heq
    obtain ⟨hconstraint, hrest⟩ := labelEnd_tells _ _ _ _ heq
    exact ⟨Prod.ext (congrArg some hlabel) hconstraint, hrest⟩

/-- An edge statement tells all of its edge. -/
theorem edgeLine_tells : Tells (fun edge => (edgeLine edge).toList) id := by
  intro a b r s heq
  simp only [toList_edgeLine, List.cons_append, List.append_assoc, List.cons.injEq,
    true_and] at heq
  obtain ⟨hstart, heq⟩ := numeral_cut (by decide) (by decide) heq
  have heq := List.append_cancel_left (List.cons.inj heq).2
  obtain ⟨c, text, hend, hc⟩ := exists_edgeEnd a.label a.constraint
  obtain ⟨c', text', hend', hc'⟩ := exists_edgeEnd b.label b.constraint
  rw [hend, hend', List.cons_append, List.cons_append] at heq
  obtain ⟨htarget, heq⟩ := numeral_cut hc hc' heq
  rw [← List.cons_append, ← hend, ← List.cons_append, ← hend'] at heq
  obtain ⟨hattributes, hrest⟩ :=
    edgeEnd_tells (a.label, a.constraint) (b.label, b.constraint) _ _ heq
  obtain ⟨hlabel, hconstraint⟩ := Prod.mk.inj hattributes
  cases a
  cases b
  simp_all

example : edgeLine ⟨0, 1, none, true⟩ = "  0 -> 1;\n" ∧
    edgeLine ⟨0, 1, some "", true⟩ = "  0 -> 1 [label=\"\"];\n" := by
  decide +kernel

/-! ## The end of a text -/

/-- What comes behind the statements of nodes and edges. -/
def closing (ids : List Int) : List Char :=
  (rankLine ids).toList ++ "\x7d\n".toList

/-- A number in the statement that places drawn nodes on one line. -/
def rankItem (id : Int) : List Char :=
  ' ' :: ((Decimal.ofInt id).toList ++ [';'])

theorem closing_nil : closing [] = "\x7d\n".toList := by
  simp [closing, rankLine]

theorem closing_of_ne_nil {ids : List Int} (h : ids ≠ []) : closing ids =
    ' ' :: ' ' :: '\x7b' :: (" rank=same;".toList ++
      (ids.flatMap rankItem ++ ' ' :: '\x7d' :: "\n\x7d\n".toList)) := by
  have hitems : (ids.map fun id => " " ++ Decimal.ofInt id ++ ";").flatMap String.toList =
      ids.flatMap rankItem := by
    rw [List.flatMap_map]
    congr 1
    funext id
    simp [rankItem]
  rw [closing, rankLine, if_neg (by simpa using h)]
  simp [String.toList_join, hitems]

/-- A numeral does not go on with a character of another kind before its end. -/
theorem numeral_ne {n : Int} {c d : Char} {r s : List Char} (hc : Decimal.isNumeralChar c = false)
    (hd : Decimal.isNumeralChar d = false) (hne : c ≠ d) :
    (Decimal.ofInt n).toList ++ c :: r ≠ d :: s := by
  intro heq
  obtain ⟨-, hrest⟩ := cut_eq (b := []) (fun _ => Decimal.isNumeralChar_of_mem)
    (fun _ h => absurd h List.not_mem_nil) hc hd heq
  exact hne (List.cons.inj hrest).1

theorem rankItem_tells : Tells rankItem id := by
  intro a b r s heq
  simp only [rankItem, List.cons_append, List.append_assoc, List.cons.injEq, true_and,
    List.nil_append] at heq
  obtain ⟨hid, hrest⟩ := numeral_cut (by decide) (by decide) heq
  exact ⟨hid, (List.cons.inj hrest).2⟩

/-- The closing brace is no number. -/
theorem without_rankItem (rest : List Char) : Without rankItem (' ' :: '\x7d' :: rest) := by
  intro id s heq
  simp only [rankItem, List.cons_append, List.append_assoc, List.nil_append, List.cons.injEq,
    true_and] at heq
  exact numeral_ne (by decide) (by decide) (by decide) heq.symm

/-- The end of a text tells the drawn nodes that are placed on one line. -/
theorem closing_injective {a b : List Int} (heq : closing a = closing b) : a = b := by
  by_cases ha : a = [] <;> by_cases hb : b = []
  · rw [ha, hb]
  · rw [ha, closing_nil, closing_of_ne_nil hb] at heq
    simp at heq
  · rw [hb, closing_nil, closing_of_ne_nil ha] at heq
    simp at heq
  · rw [closing_of_ne_nil ha, closing_of_ne_nil hb] at heq
    simp only [List.cons.injEq, true_and] at heq
    obtain ⟨hids, -⟩ := rankItem_tells.flatMap (without_rankItem _) (without_rankItem _)
      (List.append_cancel_left heq)
    simpa using hids

/-- No statement of a node or an edge stands at the end of a text: behind the blanks there is a
brace and no numeral. -/
theorem closing_ne_numeral (ids : List Int) (n : Int) (s : List Char) :
    closing ids ≠ ' ' :: ' ' :: ((Decimal.ofInt n).toList ++ ' ' :: s) := by
  intro heq
  by_cases h : ids = []
  · rw [h, closing_nil] at heq
    simp at heq
  · rw [closing_of_ne_nil h] at heq
    simp only [List.cons.injEq, true_and] at heq
    exact numeral_ne (by decide) (by decide) (by decide) heq.symm

theorem without_edgeLine (ids : List Int) :
    Without (fun edge => (edgeLine edge).toList) (closing ids) := by
  intro edge s heq
  simp only [toList_edgeLine, List.cons_append, List.append_assoc] at heq
  exact closing_ne_numeral ids _ _ heq

/-- Behind the statements of nodes there is no further one: an arrow is no list of attributes. -/
theorem without_nodeLine (edges : List DrawnEdge) (ids : List Int) :
    Without (fun node => (nodeLine node).toList)
      (edges.flatMap (fun edge => (edgeLine edge).toList) ++ closing ids) := by
  intro node s heq
  simp only [toList_nodeLine, List.cons_append, List.append_assoc] at heq
  cases edges with
  | nil => exact closing_ne_numeral ids _ _ heq
  | cons edge edges =>
      simp only [List.flatMap_cons, toList_edgeLine, List.cons_append, List.append_assoc,
        List.cons.injEq, true_and] at heq
      obtain ⟨-, heq⟩ := numeral_cut (by decide) (by decide) heq
      simp at heq

/-! ## Diagrams -/

/-- The characters of the text of a diagram. -/
theorem toList_dot (diagram : Diagram) : diagram.dot.toList =
    dotHeader.toList ++ (diagram.nodes.flatMap (fun node => (nodeLine node).toList) ++
      (diagram.edges.flatMap (fun edge => (edgeLine edge).toList) ++
        closing diagram.sameRank)) := by
  simp [dot, closing, String.toList_join, List.flatMap_map]

/-- The text of a diagram depends on what it shows, and on nothing else. -/
theorem flatMap_nodeLine {nodes nodes' : List DrawnNode}
    (h : nodes.map DrawnNode.content = nodes'.map DrawnNode.content) :
    nodes.flatMap (fun node => (nodeLine node).toList) =
      nodes'.flatMap (fun node => (nodeLine node).toList) := by
  have hcontent (nodes : List DrawnNode) : nodes.flatMap (fun node => (nodeLine node).toList) =
      (nodes.map DrawnNode.content).flatMap
        (fun content => (nodeLine ⟨content.1, content.2.1, content.2.2, 0⟩).toList) := by
    rw [List.flatMap_map]
    rfl
  rw [hcontent, hcontent, h]

/-- Diagrams have the same text if and only if they show the same. -/
theorem dot_eq_iff (d e : Diagram) : d.dot = e.dot ↔
    d.nodes.map DrawnNode.content = e.nodes.map DrawnNode.content ∧ d.edges = e.edges ∧
      d.sameRank = e.sameRank := by
  constructor
  · intro heq
    have heq := congrArg String.toList heq
    rw [toList_dot, toList_dot] at heq
    obtain ⟨hnodes, heq⟩ := nodeLine_tells.flatMap (without_nodeLine _ _) (without_nodeLine _ _)
      (List.append_cancel_left heq)
    obtain ⟨hedges, heq⟩ := edgeLine_tells.flatMap (without_edgeLine _) (without_edgeLine _) heq
    exact ⟨hnodes, by simpa using hedges, closing_injective heq⟩
  · rintro ⟨hnodes, hedges, hids⟩
    apply String.toList_injective
    rw [toList_dot, toList_dot, flatMap_nodeLine hnodes, hedges, hids]

end Diagram
end TileTrace
