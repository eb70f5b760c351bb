import TileTrace.Coordinate
import TileTrace.Proofs.BuiltValues
import TileTrace.Proofs.Unparsing

/-!
# Coordinates are known by their texts

Parentheses enclose the elements of a composite, and they group operands inside
a value. That the two are never confused rests on how brackets nest. `Nested` is
a text with matching brackets. Such a text is cut off where a bracket closes that
it did not open, and, as long as it has no commas outside of brackets, at a comma.
A value has none, so the elements of a composite are told apart, and the text of
a value is never one bracketed text as a whole, so it is no composite.
-/

namespace TileTrace

/-! ## Texts with matching brackets -/

/-- In the text brackets match. Commas stand inside of brackets only, unless allowed. -/
inductive Nested : Bool → List Char → Prop where
  | nil (commas : Bool) : Nested commas []
  | char (commas : Bool) (c : Char) (text : List Char) :
      c ≠ '(' → c ≠ ')' → (c = ',' → commas = true) → Nested commas text →
      Nested commas (c :: text)
  | group (commas : Bool) (inner text : List Char) :
      Nested true inner → Nested commas text → Nested commas ('(' :: (inner ++ ')' :: text))

/-- A character that ends a text with matching brackets. -/
def EndsNested (commas : Bool) (c : Char) : Prop :=
  c = ')' ∨ c = ',' ∧ commas = false

namespace Nested

variable {commas : Bool} {a b : List Char}

theorem append (ha : Nested commas a) (hb : Nested commas b) : Nested commas (a ++ b) := by
  induction ha with
  | nil => exact hb
  | char commas c text hopening hclosing hcomma _ ih =>
      exact .char commas c _ hopening hclosing hcomma (ih hb)
  | group commas inner text hinner _ _ ih =>
      rw [List.cons_append, List.append_assoc, List.cons_append]
      exact .group commas inner _ hinner (ih hb)

/-- Commas may always be allowed. -/
theorem allow (h : Nested commas a) : Nested true a := by
  induction h with
  | nil => exact .nil true
  | char commas c text hopening hclosing _ _ ih =>
      exact .char true c text hopening hclosing (fun _ => rfl) ih
  | group commas inner text hinner _ _ ih => exact .group true inner text hinner ih

/-- A text in brackets. -/
theorem bracketed (h : Nested true a) : Nested commas ('(' :: (a ++ [')'])) :=
  .group commas a [] h (.nil commas)

/-- A text without brackets and commas. -/
theorem of_forall (h : ∀ c ∈ a, c ≠ '(' ∧ c ≠ ')' ∧ c ≠ ',') : Nested commas a := by
  induction a with
  | nil => exact .nil commas
  | cons c a ih =>
      obtain ⟨hopening, hclosing, hcomma⟩ := h c List.mem_cons_self
      exact .char commas c a hopening hclosing (fun heq => absurd heq hcomma)
        (ih fun d hd => h d (List.mem_cons_of_mem c hd))

/-- A text with matching brackets is known from what ends it. -/
theorem cut {c d : Char} {r s : List Char} (ha : Nested commas a) (hb : Nested commas b)
    (hc : EndsNested commas c) (hd : EndsNested commas d) (heq : a ++ c :: r = b ++ d :: s) :
    a = b ∧ c :: r = d :: s := by
  -- No text goes on with the character that ends the other one.
  have hends {commas : Bool} {c x : Char} (hc : EndsNested commas c) (hclosing : x ≠ ')')
      (hcomma : x = ',' → commas = true) : c ≠ x := by
    rintro rfl
    obtain hc | ⟨hc, hcommas⟩ := hc
    · exact hclosing hc
    · exact Bool.false_ne_true (hcommas.symm.trans (hcomma hc))
  have hopening {commas : Bool} {c : Char} (hc : EndsNested commas c) : c ≠ '(' :=
    hends hc (by decide) (fun h => absurd h (by decide))
  induction ha generalizing b c d r s with
  | nil commas =>
      cases hb with
      | nil => exact ⟨rfl, heq⟩
      | char _ x text _ hclosing hcomma _ =>
          exact absurd (List.cons.inj heq).1 (hends hc hclosing hcomma)
      | group => exact absurd (List.cons.inj heq).1 (hopening hc)
  | char commas x text hx hclosing hcomma _ ih =>
      cases hb with
      | nil => exact absurd (List.cons.inj heq).1.symm (hends hd hclosing hcomma)
      | char _ y text' _ _ _ htext' =>
          obtain ⟨rfl, hrest⟩ := List.cons.inj heq
          obtain ⟨rfl, hend⟩ := ih htext' hc hd hrest
          exact ⟨rfl, hend⟩
      | group => exact absurd (List.cons.inj heq).1 hx
  | group commas inner text _ _ ihinner ih =>
      cases hb with
      | nil => exact absurd (List.cons.inj heq).1.symm (hopening hd)
      | char _ y text' hy _ _ _ => exact absurd (List.cons.inj heq).1.symm hy
      | group _ inner' text' hinner' htext' =>
          simp only [List.cons_append, List.append_assoc, List.cons.injEq, true_and] at heq
          obtain ⟨rfl, hrest⟩ := ihinner hinner' (.inl rfl) (.inl rfl) heq
          obtain ⟨rfl, hend⟩ := ih htext' hc hd (List.cons.inj hrest).2
          exact ⟨rfl, hend⟩

end Nested

/-! ## Values -/

namespace Value

variable {v w : Value}

/-- All symbols of a value have names, and none is written like an unbound slot. -/
def Named (v : Value) : Prop :=
  ∀ name ∈ v.names, Token.isName name = true ∧ name ≠ "_"

theorem Named.left {op : Operator} (h : (binary op v w).Named) : v.Named :=
  fun name hname => h name (List.mem_append_left _ hname)

theorem Named.right {op : Operator} (h : (binary op v w).Named) : w.Named :=
  fun name hname => h name (List.mem_append_right _ hname)

/-- Built values with the same text are equal. -/
theorem Built.eq_of_text_eq (hv : v.Built) (hw : w.Built) (hnames : v.Named) (hnames' : w.Named)
    (h : v.text = w.text) : v = w := by
  have hreads {u : Value} (hu : u.Named) : ReadsText u.text u.expr.asRead := by
    obtain ⟨text, hwritten, hread⟩ :=
      (wellFormed_expr fun name hname => (hu name hname).1).exists_text
    obtain rfl : u.text = text := Except.ok.inj ((expr_text u).symm.trans hwritten)
    exact (hread _).2 rfl
  have hsame : v.expr.asRead = w.expr.asRead := (h ▸ hreads hnames).unique (hreads hnames')
  have hread := read?_asRead hv.negatesNoWord
  rw [hsame, read?_asRead hw.negatesNoWord] at hread
  exact (Option.some.inj hread).symm

end Value

theorem toList_parenthesized (wrap : Bool) (text : String) : (parenthesized wrap text).toList =
    if wrap then '(' :: (text.toList ++ [')']) else text.toList := by
  cases wrap <;> simp [parenthesized]

theorem Nested.parenthesized {text : String} (h : Nested false text.toList) (wrap : Bool) :
    Nested false (parenthesized wrap text).toList := by
  rw [toList_parenthesized]
  cases wrap
  · exact h
  · exact h.allow.bracketed

namespace Token

/-- A name has a first character, and it consists of characters of names. -/
theorem exists_of_isName {name : String} (h : isName name = true) :
    ∃ c text, name.toList = c :: text ∧ ∀ d ∈ c :: text, isNameChar d = true := by
  unfold isName at h
  split at h
  · cases h
  · next c text htext =>
      rw [Bool.and_eq_true, List.all_eq_true] at h
      refine ⟨c, text, htext, ?_⟩
      rw [List.forall_mem_cons, isNameChar, h.1, Bool.true_or]
      exact ⟨rfl, h.2⟩

/-- No character of a name is a bracket or a comma. -/
theorem isNameChar_ne {c : Char} (h : isNameChar c = true) : c ≠ '(' ∧ c ≠ ')' ∧ c ≠ ',' := by
  refine ⟨?_, ?_, ?_⟩ <;> rintro rfl <;> exact absurd h (by decide)

end Token

/-- No character of a numeral is a bracket or a comma. -/
theorem Decimal.isNumeralChar_ne {c : Char} (h : isNumeralChar c = true) :
    c ≠ '(' ∧ c ≠ ')' ∧ c ≠ ',' := by
  refine ⟨?_, ?_, ?_⟩ <;> rintro rfl <;> exact absurd h (by decide)

namespace Value

variable {v w : Value}

/-- Brackets match in the text of a value, and it has no commas. -/
theorem nested_text (h : v.Named) : Nested false v.text.toList := by
  induction v with
  | concrete w =>
      exact .of_forall fun d hd => Decimal.isNumeralChar_ne (Decimal.isNumeralChar_of_mem hd)
  | symbolic name =>
      obtain ⟨c, text, htext, hchars⟩ := Token.exists_of_isName (h name List.mem_cons_self).1
      rw [Value.text, htext]
      exact .of_forall fun d hd => Token.isNameChar_ne (hchars d hd)
  | neg operand ih =>
      rw [text, String.toList_append]
      exact (Nested.of_forall (by simp)).append ((ih h).parenthesized _)
  | binary op left right ihl ihr =>
      have hop : Nested false op.symbol.toList := by
        cases op <;> exact .of_forall (by simp [Operator.symbol])
      have hblank : Nested false " ".toList := .of_forall (by simp)
      simp only [text, Operator.written, String.toList_append]
      exact (((((ihl h.left).parenthesized _).append hblank).append hop).append hblank).append
        ((ihr h.right).parenthesized _)

/-- When the text of a value starts with a bracket, it goes on behind the one that closes it. -/
theorem length_lt_of_bracketed (h : v.Named) {inner rest after : List Char}
    (hinner : Nested true inner) (heq : v.text.toList ++ rest = '(' :: (inner ++ ')' :: after)) :
    rest.length < after.length := by
  induction v generalizing rest with
  | concrete w =>
      obtain ⟨c, text, htext, hchars⟩ := Decimal.exists_ofInt w.toInt
      rw [Value.text, htext] at heq
      exact absurd (List.cons.inj heq).1
        (Decimal.isNumeralChar_ne (hchars c List.mem_cons_self)).1
  | symbolic name =>
      obtain ⟨c, text, htext, hchars⟩ := Token.exists_of_isName (h name List.mem_cons_self).1
      rw [Value.text, htext] at heq
      exact absurd (List.cons.inj heq).1 (Token.isNameChar_ne (hchars c List.mem_cons_self)).1
  | neg operand =>
      rw [text, String.toList_append] at heq
      exact absurd (List.cons.inj heq).1 (by decide)
  | binary op left right ihl =>
      simp only [text, Operator.written, String.toList_append, List.append_assoc,
        toList_parenthesized] at heq
      split at heq
      · -- The bracket groups the left operand, and the operator follows.
        rw [List.cons_append, List.append_assoc, List.singleton_append] at heq
        obtain ⟨-, hafter⟩ := (nested_text h.left).allow.cut hinner (.inl rfl) (.inl rfl)
          (List.cons.inj heq).2
        rw [← (List.cons.inj hafter).2]
        simp
        omega
      · have hlength := ihl h.left heq
        simp only [List.length_append] at hlength
        omega

/-- The text of a value is not empty. -/
theorem text_ne_nil (h : v.Named) : v.text.toList ≠ [] := by
  cases v with
  | concrete w =>
      obtain ⟨c, text, htext, -⟩ := Decimal.exists_ofInt w.toInt
      rw [Value.text, htext]
      exact List.cons_ne_nil c text
  | symbolic name =>
      obtain ⟨c, text, htext, -⟩ := Token.exists_of_isName (h name List.mem_cons_self).1
      rw [Value.text, htext]
      exact List.cons_ne_nil c text
  | neg operand => simp [text]
  | binary op left right => simp [text, Operator.written]

/-- No value is written like an unbound slot. -/
theorem text_ne_slot (h : v.Named) : v.text ≠ "_" := by
  intro heq
  have heq := congrArg String.toList heq
  cases v with
  | concrete w =>
      have hmem : '_' ∈ (Decimal.ofInt w.toInt).toList := by
        rw [text] at heq
        simp [heq]
      exact absurd (Decimal.isNumeralChar_of_mem hmem) (by decide)
  | symbolic name => exact (h name List.mem_cons_self).2 (String.toList_injective heq)
  | neg operand => simp [text] at heq
  | binary op left right =>
      have hlength := congrArg List.length heq
      simp only [text, Operator.written, String.toList_append, List.length_append] at hlength
      simp at hlength
      omega

end Value

/-! ## Coordinates -/

namespace Coordinate

mutual
/-- The values that are bound in a coordinate. -/
def values : Coordinate → List Value
  | unbound => []
  | bound value => [value]
  | composite elements => allValues elements

/-- The values that are bound in the coordinates of a list. -/
def allValues : List Coordinate → List Value
  | [] => []
  | element :: elements => values element ++ allValues elements
end

/-- The values are built, and their symbols are names that are not written like a slot. -/
def Readable (values : List Value) : Prop :=
  ∀ v ∈ values, v.Built ∧ v.Named

theorem Readable.left {vs ws : List Value} (h : Readable (vs ++ ws)) : Readable vs :=
  fun v hv => h v (List.mem_append_left ws hv)

theorem Readable.right {vs ws : List Value} (h : Readable (vs ++ ws)) : Readable ws :=
  fun v hv => h v (List.mem_append_right vs hv)

/-- What follows an element of a composite. -/
def behind : List Coordinate → List Char
  | [] => [')']
  | c :: cs => ',' :: ' ' :: (c.text.toList ++ behind cs)

/-- What follows the opening bracket of a composite. -/
def row : List Coordinate → List Char
  | [] => [')']
  | c :: cs => c.text.toList ++ behind cs

theorem intercalate_cons_eq (c : Coordinate) (cs : List Coordinate) :
    (String.intercalate ", " (texts (c :: cs))).toList ++ [')'] = c.text.toList ++ behind cs := by
  induction cs generalizing c with
  | nil => simp [texts, behind]
  | cons d cs ih =>
      rw [texts, texts, String.intercalate_cons_cons, ← texts, String.toList_append,
        String.toList_append, List.append_assoc, List.append_assoc, ih d]
      rfl

theorem toList_composite (cs : List Coordinate) : (composite cs).text.toList = '(' :: row cs := by
  cases cs with
  | nil => rfl
  | cons c cs =>
      rw [text, String.toList_append, String.toList_append, List.append_assoc, row,
        ← intercalate_cons_eq]
      rfl

/-- What follows an element ends its text. -/
theorem exists_behind (cs : List Coordinate) :
    ∃ c text, behind cs = c :: text ∧ EndsNested false c := by
  cases cs with
  | nil => exact ⟨')', [], rfl, .inl rfl⟩
  | cons d cs => exact ⟨',', _, rfl, .inr ⟨rfl, rfl⟩⟩

/-- A coordinate with matching brackets and no comma outside of them is cut off at its end. -/
theorem cut_behind {a b : List Char} (ha : Nested false a) (hb : Nested false b)
    {cs ds : List Coordinate} (heq : a ++ behind cs = b ++ behind ds) :
    a = b ∧ behind cs = behind ds := by
  obtain ⟨c, text, hcs, hc⟩ := exists_behind cs
  obtain ⟨d, text', hds, hd⟩ := exists_behind ds
  rw [hcs, hds] at heq ⊢
  exact ha.cut hb hc hd heq

mutual
/-- Brackets match in the text of a coordinate, and its commas stand inside of them. -/
theorem nested_text : ∀ c : Coordinate, Readable c.values → Nested false c.text.toList
  | unbound, _ => .of_forall (by simp [text])
  | bound v, h => Value.nested_text (h v List.mem_cons_self).2
  | composite cs, h => by
      obtain ⟨inner, hrow, hinner⟩ := exists_row cs h
      rw [toList_composite, hrow]
      exact hinner.bracketed

/-- Brackets match behind the opening bracket of a composite, up to the last one. -/
theorem exists_row : ∀ cs : List Coordinate, Readable (allValues cs) →
    ∃ inner, row cs = inner ++ [')'] ∧ Nested true inner
  | [], _ => ⟨[], rfl, .nil true⟩
  | c :: cs, h => by
      obtain ⟨inner, hbehind, hinner⟩ := exists_inner_behind cs h.right
      refine ⟨c.text.toList ++ inner, ?_, (nested_text c h.left).allow.append hinner⟩
      rw [row, hbehind, List.append_assoc]

/-- Brackets match behind an element of a composite, up to the last one. -/
theorem exists_inner_behind : ∀ cs : List Coordinate, Readable (allValues cs) →
    ∃ inner, behind cs = inner ++ [')'] ∧ Nested true inner
  | [], _ => ⟨[], rfl, .nil true⟩
  | c :: cs, h => by
      obtain ⟨inner, hbehind, hinner⟩ := exists_inner_behind cs h.right
      have hseparator : Nested true [',', ' '] :=
        .char true ',' _ (by decide) (by decide) (fun _ => rfl) (.of_forall (by simp))
      refine ⟨[',', ' '] ++ (c.text.toList ++ inner), ?_,
        hseparator.append ((nested_text c h.left).allow.append hinner)⟩
      rw [behind, hbehind]
      simp
end

/-- The text of a coordinate is not empty. -/
theorem text_ne_nil {c : Coordinate} (h : Readable c.values) : c.text.toList ≠ [] := by
  cases c with
  | unbound => simp [text]
  | bound v => exact Value.text_ne_nil (h v List.mem_cons_self).2
  | composite cs => simp [toList_composite]

/-- No value is written like a composite. -/
theorem bound_text_ne {v : Value} {cs : List Coordinate} (hv : v.Named)
    (hcs : Readable (allValues cs)) : (bound v).text ≠ (composite cs).text := by
  intro heq
  have heq := congrArg String.toList heq
  obtain ⟨inner, hrow, hinner⟩ := exists_row cs hcs
  rw [toList_composite, hrow, text, ← List.append_nil v.text.toList] at heq
  exact absurd (Value.length_lt_of_bracketed hv hinner heq) (Nat.lt_irrefl 0)

/-- No composite is written like a slot. -/
theorem slot_text_ne (cs : List Coordinate) : unbound.text ≠ (composite cs).text := by
  intro heq
  have heq := congrArg String.toList heq
  rw [toList_composite] at heq
  exact absurd (List.cons.inj heq).1 (by decide)

/-- An element is never missing: the text of a coordinate does not start with a closing bracket. -/
theorem closing_ne_row {c : Coordinate} (cs : List Coordinate) (h : Readable c.values) :
    row [] ≠ row (c :: cs) := by
  intro heq
  have heq : [] ++ behind [] = c.text.toList ++ behind cs := heq
  exact text_ne_nil h (cut_behind (.nil false) (nested_text c h) heq).1.symm

mutual
/-- Coordinates with the same text are equal. -/
theorem eq_of_text_eq : ∀ c d : Coordinate, Readable c.values → Readable d.values →
    c.text = d.text → c = d
  | unbound, unbound, _, _, _ => rfl
  | unbound, bound v, _, hd, h =>
      absurd h.symm (Value.text_ne_slot (hd v List.mem_cons_self).2)
  | unbound, composite ds, _, _, h => absurd h (slot_text_ne ds)
  | bound v, unbound, hc, _, h => absurd h (Value.text_ne_slot (hc v List.mem_cons_self).2)
  | bound v, bound w, hc, hd, h => by
      obtain ⟨hv, hnames⟩ := hc v List.mem_cons_self
      obtain ⟨hw, hnames'⟩ := hd w List.mem_cons_self
      exact congrArg bound (hv.eq_of_text_eq hw hnames hnames' h)
  | bound v, composite ds, hc, hd, h =>
      absurd h (bound_text_ne (hc v List.mem_cons_self).2 hd)
  | composite cs, unbound, _, _, h => absurd h.symm (slot_text_ne cs)
  | composite cs, bound w, hc, hd, h =>
      absurd h.symm (bound_text_ne (hd w List.mem_cons_self).2 hc)
  | composite cs, composite ds, hc, hd, h => by
      have hrows := congrArg String.toList h
      rw [toList_composite, toList_composite] at hrows
      exact congrArg composite (eq_of_row_eq cs ds hc hd (List.cons.inj hrows).2)

/-- Composites with the same text have the same elements. -/
theorem eq_of_row_eq : ∀ cs ds : List Coordinate, Readable (allValues cs) →
    Readable (allValues ds) → row cs = row ds → cs = ds
  | [], [], _, _, _ => rfl
  | [], d :: ds, _, hd, h => absurd h (closing_ne_row ds hd.left)
  | c :: cs, [], hc, _, h => absurd h.symm (closing_ne_row cs hc.left)
  | c :: cs, d :: ds, hc, hd, h => by
      obtain ⟨htext, hbehind⟩ := cut_behind (nested_text c hc.left) (nested_text d hd.left) h
      rw [eq_of_text_eq c d hc.left hd.left (String.toList_injective htext),
        eq_of_behind_eq cs ds hc.right hd.right hbehind]

/-- The elements behind an element are known from what follows it. -/
theorem eq_of_behind_eq : ∀ cs ds : List Coordinate, Readable (allValues cs) →
    Readable (allValues ds) → behind cs = behind ds → cs = ds
  | [], [], _, _, _ => rfl
  | [], d :: ds, _, _, h => absurd (List.cons.inj h).1 (by decide)
  | c :: cs, [], _, _, h => absurd (List.cons.inj h).1 (by decide)
  | c :: cs, d :: ds, hc, hd, h => by
      obtain ⟨htext, hbehind⟩ := cut_behind (nested_text c hc.left) (nested_text d hd.left)
        (List.cons.inj (List.cons.inj h).2).2
      rw [eq_of_text_eq c d hc.left hd.left (String.toList_injective htext),
        eq_of_behind_eq cs ds hc.right hd.right hbehind]
end

/-- Coordinates of any nesting over built values are written alike exactly if they are the same. -/
theorem text_identifies {c d : Coordinate} (hc : Readable c.values) (hd : Readable d.values) :
    c.text = d.text ↔ same c d = true := by
  rw [same_iff_eq]
  exact ⟨eq_of_text_eq c d hc hd, congrArg text⟩

/-- A sum, which needs brackets as the operand of a product. -/
def offset : Value :=
  .binary .add (.symbolic "x") (.concrete 1)

/-- A composite of one product. Its inner brackets group an operand. -/
def scaled : Coordinate :=
  composite [bound (.binary .mul offset (.symbolic "y"))]

/-- A composite of a composite and a value. -/
def paired : Coordinate :=
  composite [composite [bound offset], bound (.symbolic "y")]

/-- Both kinds of brackets at the same place in two texts, which stay different. -/
theorem text_identifies_scaled :
    scaled.text = "((x + 1) * y)" ∧ paired.text = "((x + 1), y)" ∧ scaled.text ≠ paired.text := by
  have hx : (Value.symbolic "x").Built := .symbol "x" _ rfl
  have hy : (Value.symbolic "y").Built := .symbol "y" _ rfl
  have hoffset : offset.Built := .combined .add _ _ _ hx (.word 1) rfl
  have hproduct : (Value.binary .mul offset (.symbolic "y")).Built :=
    .combined .mul _ _ _ hoffset hy rfl
  have hnames : offset.Named := by
    unfold Value.Named
    decide
  have hnames' : (Value.symbolic "y").Named := by
    unfold Value.Named
    decide
  have hscaled : Readable scaled.values :=
    List.forall_mem_singleton.2 ⟨hproduct, List.forall_mem_append.2 ⟨hnames, hnames'⟩⟩
  have hpaired : Readable paired.values :=
    List.forall_mem_cons.2 ⟨⟨hoffset, hnames⟩, List.forall_mem_singleton.2 ⟨hy, hnames'⟩⟩
  refine ⟨by decide +kernel, by decide +kernel, fun h => ?_⟩
  exact absurd ((text_identifies hscaled hpaired).1 h) (by decide)

end Coordinate
end TileTrace
