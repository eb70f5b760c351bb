import Mathlib.Data.List.Forall2
import TileTrace.Proofs.BuiltValues
import TileTrace.Proofs.Grammar

/-!
# Reading what is written

What does a reader of Python make of a tree that is written as a text? `Phrase`
joins how a text is lexed and how its tokens are read, and there is one lemma for
each way to put texts together. An operand is wrapped exactly where it would not
be strong enough for its place, by `Operator.left_le` and `Operator.right_le`, so
a well-formed tree is read as it is: `Expr.WellFormed.exists_text`. Values are
therefore known by their texts. `Expr.text_faithful` is the main theorem.
-/

namespace TileTrace

/-! ## Phrases -/

/-- The text is a phrase of at least the given strength, and is read as the given tree. -/
def Phrase (s : Strength) (text : String) (e : Expr) : Prop :=
  ∃ ts, Lexes text.toList ts ∧ Reads s ts e

/-- The texts, with commas between them, are phrases that are read as the given trees. -/
def Phrases (texts : List String) (es : List Expr) : Prop :=
  ∃ ts, Lexes (String.intercalate ", " texts).toList ts ∧ ReadsList ts es

namespace Phrase

variable {s s' : Strength} {text left right : String} {e l r : Expr}

theorem looser (h : Phrase s text e) (hs : s' ≤ s) : Phrase s' text e := by
  obtain ⟨ts, hlex, hreads⟩ := h
  exact ⟨ts, hlex, .looser _ _ _ _ hs hreads⟩

theorem readsText (h : Phrase s text e) (hs : .sum ≤ s) : ReadsText text e := by
  obtain ⟨ts, hlex, hreads⟩ := h.looser hs
  exact ⟨ts, hlex.lex_eq, hreads⟩

theorem number (n : Nat) : Phrase .atom (Decimal.ofNat n) (.constant n) :=
  ⟨_, lexes_number n, .number n⟩

theorem empty : Phrase .atom "None" .empty :=
  ⟨_, lexes_name (by decide), .empty⟩

theorem name {name : String} (h : Token.isName name = true) (hne : name ≠ "None") :
    Phrase .atom name (.reference name) :=
  ⟨_, lexes_name h, .name name hne⟩

theorem negation (h : Phrase .negation text e) : Phrase .negation ("-" ++ text) (.unary "-" e) := by
  obtain ⟨ts, hlex, hreads⟩ := h
  refine ⟨_, ?_, .negation ts e hreads⟩
  rw [String.toList_append]
  exact lexesAny_minus.append_lexes hlex

/-- Parentheses make a phrase an atom. -/
theorem group (h : Phrase .sum text e) : Phrase .atom ("(" ++ text ++ ")") e := by
  obtain ⟨ts, hlex, hreads⟩ := h
  refine ⟨_, ?_, .group ts e hreads⟩
  rw [String.toList_append, String.toList_append]
  exact ((lexesAny_opening.append_lexes hlex).append lexesAny_closing (by decide)).lexes

/-- An operand is a phrase as strong as its place demands, when it is wrapped wherever it is not
strong enough. -/
theorem parenthesized {wrap : Bool} (h : Phrase s text e) (hs : .sum ≤ s) (hs' : s' ≤ .atom)
    (hwrap : wrap = false → s' ≤ s) : Phrase s' (parenthesized wrap text) e := by
  cases wrap with
  | false => exact h.looser (hwrap rfl)
  | true => exact (h.looser hs).group.looser hs'

end Phrase

namespace Operator

/-- How strong the left operand has to be. -/
def left : Operator → Strength
  | pow => .atom
  | op => op.strength

/-- How strong the right operand has to be. -/
def right : Operator → Strength
  | pow => .negation
  | op => op.strength + 1

variable {op : Operator} {s : Strength}

/-- A left operand that is not wrapped is strong enough. -/
theorem left_le (h : op.wrapsLeft s = false) : op.left ≤ s := by
  cases op with
  | pow => exact Nat.lt_of_not_le (of_decide_eq_false h)
  | _ => exact Nat.le_of_not_lt (of_decide_eq_false h)

/-- A right operand that is not wrapped is strong enough. -/
theorem right_le (h : op.wrapsRight s = false) : op.right ≤ s := by
  cases op with
  | pow =>
      have hpower : Strength.power ≤ s := Nat.le_of_not_lt (of_decide_eq_false h)
      exact Nat.le_trans (by decide) hpower
  | _ => exact Nat.lt_of_not_le (of_decide_eq_false h)

theorem left_le_atom (op : Operator) : op.left ≤ .atom := by
  cases op <;> decide

theorem right_le_atom (op : Operator) : op.right ≤ .atom := by
  cases op <;> decide

end Operator

/-- An operator between operands that are strong enough makes a phrase. -/
theorem Reads.binary {op : Operator} {ls rs : List Token} {l r : Expr} (hl : Reads op.left ls l)
    (hr : Reads op.right rs r) :
    Reads op.strength (ls ++ .operator op :: rs) (.binary op.symbol l r) := by
  cases op with
  | add | sub => exact .sum _ ls rs l r rfl hl hr
  | mul | floorDiv | mod => exact .product _ ls rs l r rfl hl hr
  | pow => exact .power ls rs l r hl hr

/-- A binary expression as written is read as one. -/
theorem Phrase.written {op : Operator} {s s' : Strength} {left right : String} {l r : Expr}
    (hl : Phrase s left l) (hs : .sum ≤ s) (hr : Phrase s' right r) (hs' : .sum ≤ s') :
    Phrase op.strength (op.written s left s' right) (.binary op.symbol l r) := by
  obtain ⟨ls, hlexl, hreadsl⟩ := hl.parenthesized hs op.left_le_atom Operator.left_le
  obtain ⟨rs, hlexr, hreadsr⟩ := hr.parenthesized hs' op.right_le_atom Operator.right_le
  refine ⟨_, ?_, hreadsl.binary hreadsr⟩
  have hlex := (hlexl.append (lexesAny_operator op) (by decide)).append_lexes hlexr
  simpa [Operator.written] using hlex

/-! ## Tuples -/

/-- Elements of a tuple. -/
theorem Phrases.of_forall₂ {text : String} {texts : List String} {e : Expr} {es : List Expr}
    (h : List.Forall₂ (Phrase .sum) (text :: texts) (e :: es)) :
    Phrases (text :: texts) (e :: es) := by
  induction texts generalizing text e es with
  | nil =>
      obtain ⟨⟨ts, hlex, hreads⟩, hnil⟩ := List.forall₂_cons.1 h
      obtain rfl := List.forall₂_nil_left_iff.1 hnil
      exact ⟨ts, by rwa [String.intercalate_singleton], .one ts e hreads⟩
  | cons text' texts ih =>
      obtain ⟨⟨ts, hlex, hreads⟩, hrest⟩ := List.forall₂_cons.1 h
      obtain ⟨e', es, -, -, rfl⟩ := List.forall₂_cons_left_iff.1 hrest
      obtain ⟨us, hlexs, hreadss⟩ := ih hrest
      refine ⟨_, ?_, .cons ts us e _ hreads hreadss⟩
      have hlex' := (hlex.append lexesAny_separator (by decide)).append_lexes hlexs
      simpa [String.intercalate_cons_cons] using hlex'

/-- A tuple as written is read as one. -/
theorem Phrase.tuple {texts : List String} {es : List Expr}
    (h : List.Forall₂ (Phrase .sum) texts es) :
    Phrase .atom (Expr.tupleText texts) (.tuple es) := by
  cases h with
  | nil => exact ⟨_, (lexesAny_opening.append lexesAny_closing).lexes, .unit⟩
  | @cons text e texts es hhead htail =>
      obtain ⟨ts, hlex, hreads⟩ := Phrases.of_forall₂ (.cons hhead htail)
      cases htail with
      | nil =>
          refine ⟨_, ?_, .tupleComma ts _ hreads⟩
          have hlex' := lexesAny_opening.append
            (hlex.append (lexesAny_comma.append lexesAny_closing) (by decide))
          simpa [Expr.tupleText] using hlex'.lexes
      | @cons text' e' texts es hhead' htail' =>
          refine ⟨_, ?_, .tuple ts _ hreads (by simp)⟩
          have hlex' := lexesAny_opening.append (hlex.append lexesAny_closing (by decide))
          simpa [Expr.tupleText] using hlex'.lexes

/-! ## Trees -/

namespace Expr

/-- Trees that can be written: operators have as many operands as they need, a leading operator is
a minus sign, and names are names. Fields that a node does not use are left open. -/
inductive WellFormed : Expr → Prop where
  | constant (value : Int) (name : String) (operands : List Expr) :
      WellFormed (node .constant value name operands)
  | empty (value : Int) (name : String) (operands : List Expr) :
      WellFormed (node .none value name operands)
  | name (value : Int) (name : String) (operands : List Expr) :
      Token.isName name = true → WellFormed (node .name value name operands)
  | tuple (value : Int) (name : String) (elements : List Expr) :
      (∀ e ∈ elements, WellFormed e) → WellFormed (node .tuple value name elements)
  | negation (value : Int) (operand : Expr) :
      WellFormed operand → WellFormed (node .unary value "-" [operand])
  | binary (value : Int) (op : Operator) (left right : Expr) :
      WellFormed left → WellFormed right → WellFormed (node .binary value op.symbol [left, right])

mutual
/-- The tree that a reader sees. A negative number is the negation of a number, the name `None` is
the empty expression, and fields that a node does not use are blank. -/
def asRead : Expr → Expr
  | node .constant value _ _ =>
      if value < 0 then unary "-" (constant value.natAbs) else constant value
  | node .none _ _ _ => empty
  | node .name _ name _ => if name = "None" then empty else reference name
  | node .tuple _ _ elements => tuple (allAsRead elements)
  | node .unary _ symbol operands => node .unary 0 symbol (allAsRead operands)
  | node .binary _ symbol operands => node .binary 0 symbol (allAsRead operands)

/-- The trees that a reader sees. -/
def allAsRead : List Expr → List Expr
  | [] => []
  | e :: es => e.asRead :: allAsRead es
end

/-- Trees that are read as they are: no number is negative, no name is `None`, and fields that a
node does not use are blank. -/
inductive Plain : Expr → Prop where
  | constant (n : Nat) : Plain (constant n)
  | empty : Plain empty
  | name (name : String) : name ≠ "None" → Plain (reference name)
  | tuple (elements : List Expr) : (∀ e ∈ elements, Plain e) → Plain (tuple elements)
  | unary (symbol : String) (operand : Expr) : Plain operand → Plain (unary symbol operand)
  | binary (symbol : String) (left right : Expr) :
      Plain left → Plain right → Plain (binary symbol left right)

/-- A reader sees a plain tree as it is. -/
theorem Plain.asRead_eq {e : Expr} (h : e.Plain) : e.asRead = e := by
  induction h with
  | constant n =>
      rw [Expr.constant, asRead, if_neg (Int.not_lt.2 (Int.natCast_nonneg n))]
      rfl
  | empty => rfl
  | name name hne => exact if_neg hne
  | tuple elements _ ih =>
      have hall : allAsRead elements = elements := by
        clear * - ih
        induction elements with
        | nil => rfl
        | cons e elements ihs =>
            rw [allAsRead, ih e List.mem_cons_self,
              ihs fun e' he' => ih e' (List.mem_cons_of_mem e he')]
      exact congrArg Expr.tuple hall
  | unary symbol operand _ ih => exact congrArg (Expr.unary symbol) ih
  | binary symbol left right _ _ ihl ihr => exact congrArg₂ (Expr.binary symbol) ihl ihr

/-- A tree is written as a phrase of its strength that is read as the tree. -/
def Written (e : Expr) : Prop :=
  ∃ s text, e.strength = .ok s ∧ e.text = .ok text ∧ .sum ≤ s ∧ Phrase s text e.asRead

/-- A number is written as a numeral, or as the negation of one. -/
theorem written_constant (value : Int) (name : String) (operands : List Expr) :
    (node .constant value name operands).Written := by
  by_cases hneg : value < 0
  · refine ⟨.negation, "-" ++ Decimal.ofNat value.natAbs, ?_, ?_, by decide, ?_⟩
    · rw [strength, if_pos hneg]
    · rw [text, Decimal.ofInt, if_pos hneg]
    · rw [asRead, if_pos hneg]
      exact ((Phrase.number _).looser (by decide)).negation
  · refine ⟨.atom, Decimal.ofNat value.natAbs, ?_, ?_, by decide, ?_⟩
    · rw [strength, if_neg hneg]
    · rw [text, Decimal.ofInt, if_neg hneg]
    · have hnumber := Phrase.number value.natAbs
      rw [asRead, if_neg hneg]
      rwa [Int.natAbs_of_nonneg (by omega)] at hnumber

/-- A name is written as it is. -/
theorem written_name {name : String} (h : Token.isName name = true) (value : Int)
    (operands : List Expr) : (node .name value name operands).Written := by
  refine ⟨.atom, name, rfl, rfl, by decide, ?_⟩
  rw [asRead]
  split
  · next hnone => exact hnone ▸ Phrase.empty
  · next hne => exact .name h hne

/-- The elements of a tuple are written one by one. -/
theorem exists_texts {elements : List Expr} (h : ∀ e ∈ elements, e.Written) :
    ∃ ts, texts elements = .ok ts ∧ List.Forall₂ (Phrase .sum) ts (allAsRead elements) := by
  induction elements with
  | nil => exact ⟨[], rfl, .nil⟩
  | cons e elements ih =>
      obtain ⟨s, t, -, htext, hs, hphrase⟩ := h e List.mem_cons_self
      obtain ⟨ts, htexts, hphrases⟩ := ih fun e' he' => h e' (List.mem_cons_of_mem e he')
      refine ⟨t :: ts, ?_, .cons (hphrase.looser hs) hphrases⟩
      rw [texts, htext, htexts]
      rfl

/-- A well-formed tree is written as a phrase of its strength that is read as the tree. -/
theorem WellFormed.written {e : Expr} (h : e.WellFormed) : e.Written := by
  induction h with
  | constant value name operands => exact written_constant value name operands
  | empty value name operands => exact ⟨.atom, "None", rfl, rfl, by decide, .empty⟩
  | name value name operands hname => exact written_name hname value operands
  | tuple value name elements _ ih =>
      obtain ⟨ts, htexts, hphrases⟩ := exists_texts ih
      refine ⟨.atom, tupleText ts, rfl, ?_, by decide, .tuple hphrases⟩
      rw [text, htexts]
      rfl
  | negation value operand _ ih =>
      obtain ⟨s, t, hstrength, htext, hs, hphrase⟩ := ih
      refine ⟨.negation, "-" ++ parenthesized s.wrapsNegated t, rfl, ?_, by decide, ?_⟩
      · rw [text, hstrength, htext]
        rfl
      · exact (hphrase.parenthesized hs (by decide) fun hwrap =>
          Nat.le_of_not_lt (of_decide_eq_false hwrap)).negation
  | binary value op left right _ _ ihl ihr =>
      obtain ⟨s, t, hstrength, htext, hs, hphrase⟩ := ihl
      obtain ⟨s', t', hstrength', htext', hs', hphrase'⟩ := ihr
      have hop : operator op.symbol = .ok op := by
        rw [operator, Operator.ofSymbol?_symbol]
      refine ⟨op.strength, op.written s t s' t', ?_, ?_, ?_, hphrase.written hs hphrase' hs'⟩
      · rw [strength, hop]
        rfl
      · rw [text, hop, hstrength, hstrength', htext, htext']
        rfl
      · cases op <;> decide

/-- Writing a well-formed tree succeeds, and the text is read as the tree and as nothing else. -/
theorem WellFormed.exists_text {e : Expr} (h : e.WellFormed) :
    ∃ text, e.text = .ok text ∧ ∀ e', ReadsText text e' ↔ e' = e.asRead := by
  obtain ⟨s, text, -, htext, hs, hphrase⟩ := h.written
  refine ⟨text, htext, fun e' => ⟨fun hreads => hreads.unique (hphrase.readsText hs), ?_⟩⟩
  rintro rfl
  exact hphrase.readsText hs

end Expr

/-! ## Values -/

namespace Value

variable {v w : Value}

/-- The tree of a value whose symbols are names is well formed. -/
theorem wellFormed_expr (h : ∀ name ∈ v.names, Token.isName name = true) :
    v.expr.WellFormed := by
  induction v with
  | concrete w => exact .constant _ _ _
  | symbolic name => exact .name _ _ _ (h name List.mem_cons_self)
  | neg operand ih => exact .negation _ _ (ih h)
  | binary op left right ihl ihr =>
      exact .binary _ op _ _ (ihl fun name hname => h name (List.mem_append_left _ hname))
        (ihr fun name hname => h name (List.mem_append_right _ hname))

/-- The value behind a tree that a reader sees. The negation of a number is a word. -/
def read? : Expr → Option Value
  | .node .constant n _ _ => some (concrete (Int64.ofInt n))
  | .node .none _ _ _ => some (symbolic "None")
  | .node .name _ name _ => some (symbolic name)
  | .node .unary _ _ [operand] =>
      if operand.kind = .constant then some (concrete (Int64.ofInt (-operand.value)))
      else (read? operand).map neg
  | .node .binary _ symbol [left, right] => do
      return binary (← Operator.ofSymbol? symbol) (← read? left) (← read? right)
  | _ => none

/-- A word is read back from its number, or from the negation of one. -/
theorem read?_concrete (a : Int64) : read? (concrete a).expr.asRead = some (concrete a) := by
  have hasRead : (concrete a).expr.asRead =
      if a.toInt < 0 then .unary "-" (.constant a.toInt.natAbs) else .constant a.toInt := rfl
  rw [hasRead]
  split
  · next hneg =>
      have habs : -(a.toInt.natAbs : Int) = a.toInt := by omega
      simp only [Expr.unary, Expr.constant, read?, Expr.kind, Expr.value, if_true, habs,
        Int64.ofInt_toInt]
  · rw [Expr.constant, read?, Int64.ofInt_toInt]

theorem asRead_symbolic (name : String) : (symbolic name).expr.asRead =
    if name = "None" then .empty else .reference name := rfl

/-- A symbol is read back from its name, even if the name is not read as one. -/
theorem read?_symbolic (name : String) :
    read? (symbolic name).expr.asRead = some (symbolic name) := by
  rw [asRead_symbolic]
  split
  · next hnone => rw [hnone, Expr.empty, read?]
  · rw [Expr.reference, read?]

/-- What is negated is not read as a number, as long as no word is negated that has a negative. -/
theorem kind_asRead_ne_constant (h : (neg v).NegatesNoWord) : v.expr.asRead.kind ≠ .constant := by
  cases v with
  | concrete a =>
      obtain rfl := h.1 a rfl
      decide
  | symbolic name =>
      rw [asRead_symbolic]
      split <;> nofun
  | neg operand => nofun
  | binary op l r => nofun

/-- A value is read back from the tree that a reader sees, as long as no word is negated that has
a negative. -/
theorem read?_asRead (h : v.NegatesNoWord) : read? v.expr.asRead = some v := by
  induction v with
  | concrete a => exact read?_concrete a
  | symbolic name => exact read?_symbolic name
  | neg operand ih =>
      have hasRead : (neg operand).expr.asRead = .unary "-" operand.expr.asRead := rfl
      rw [hasRead, Expr.unary, read?, if_neg (kind_asRead_ne_constant h), ih h.2]
      rfl
  | binary op l r ihl ihr =>
      have hasRead : (binary op l r).expr.asRead =
          .binary op.symbol l.expr.asRead r.expr.asRead := rfl
      rw [hasRead, Expr.binary, read?, Operator.ofSymbol?_symbol, ihl h.1, ihr h.2]
      rfl

end Value

/-- Writing a well-formed tree succeeds, and a reader of Python reads the text as this tree and as
no other, where a negative number is the negation of a number. Built values whose symbols are names
are equal when their texts are. -/
theorem Expr.text_faithful :
    (∀ e : Expr, e.WellFormed →
      ∃ text, e.text = .ok text ∧ ∀ e', ReadsText text e' ↔ e' = e.asRead) ∧
    (∀ e : Expr, e.Plain → e.asRead = e) ∧
    ∀ v w : Value, v.Built → w.Built → (∀ name ∈ v.names, Token.isName name = true) →
      (∀ name ∈ w.names, Token.isName name = true) → v.text = w.text → v = w := by
  refine ⟨fun e he => he.exists_text, fun e he => he.asRead_eq, ?_⟩
  intro v w hv hw hnames hnames' htext
  have hreads {u : Value} (hu : ∀ name ∈ u.names, Token.isName name = true) :
      ReadsText u.text u.expr.asRead := by
    obtain ⟨text, hwritten, hread⟩ := (Value.wellFormed_expr hu).exists_text
    obtain rfl : u.text = text := Except.ok.inj ((Value.expr_text u).symm.trans hwritten)
    exact (hread _).2 rfl
  have hsame : v.expr.asRead = w.expr.asRead := (htext ▸ hreads hnames).unique (hreads hnames')
  have hread := Value.read?_asRead hv.negatesNoWord
  rw [hsame, Value.read?_asRead hw.negatesNoWord] at hread
  exact (Option.some.inj hread).symm

/-- The difference of a negated power and a negative number. -/
def Expr.difference : Expr :=
  .binary "-" (.unary "-" (.binary "**" (.reference "x") (.constant 2))) (.constant (-3))

/-- The difference is read with the power under the sign, and with a second sign for the negative
number. A pair is read as it is, and the negation of the least word has a text of its own. -/
theorem Expr.text_faithful_difference :
    (∀ e, ReadsText "-x ** 2 - -3" e ↔
      e = .binary "-" (.unary "-" (.binary "**" (.reference "x") (.constant 2)))
        (.unary "-" (.constant 3))) ∧
    (Expr.tuple [.reference "x", .empty]).asRead = .tuple [.reference "x", .empty] ∧
    Value.neg (.concrete Int64.minValue) = (Value.concrete Int64.minValue).negated := by
  have hdifference : difference.WellFormed :=
    .binary 0 .sub _ _ (.negation _ _ (.binary 0 .pow _ _ (.name _ _ _ (by decide))
      (.constant _ _ _))) (.constant _ _ _)
  obtain ⟨text, htext, hreads⟩ := text_faithful.1 difference hdifference
  have hwritten : difference.text = .ok "-x ** 2 - -3" := rfl
  obtain rfl : text = "-x ** 2 - -3" := Except.ok.inj (htext.symm.trans hwritten)
  refine ⟨hreads, text_faithful.2.1 _ ?_, text_faithful.2.2 _ _ ?_ ?_ ?_ ?_ rfl⟩
  · refine .tuple _ ?_
    simp only [List.mem_cons, List.not_mem_nil, or_false, forall_eq_or_imp, forall_eq]
    exact ⟨.name _ (by decide), .empty⟩
  · show (Value.concrete Int64.minValue).negated.Built
    exact .negated _ (.word _)
  · exact .negated _ (.word _)
  · exact nofun
  · exact nofun

end TileTrace
