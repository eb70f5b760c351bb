import TileTrace.Proofs.ReadingRuns

/-!
# Places of operands

A hole is the place of an operand in a node of an expression tree, with everything
else that is in the node. By `WellFormed.exists_hole`, every operand has one.
Parentheses around an operand belong to its hole, and `Hole.wraps` says whether
they are written. `Surrounds` says how the texts in front of an operand and behind
it are read, whatever is put in between. `Hole.Separates` says that an operand in
parentheses and a bare one are never read as the same. `WellFormed.exists_sides`
is the main lemma: it says both about every hole of a well-formed tree.
-/

namespace TileTrace

open Pending

theorem Expr.operator_symbol (op : Operator) : operator op.symbol = .ok op := by
  rw [operator, Operator.ofSymbol?_symbol]

theorem Expr.allAsRead_append (es es' : List Expr) :
    allAsRead (es ++ es') = allAsRead es ++ allAsRead es' := by
  induction es with
  | nil => rfl
  | cons e es ih => rw [List.cons_append, allAsRead, ih, allAsRead, List.cons_append]

/-- A node with an operand left out. -/
inductive Hole where
  | negation (value : Int)
  | left (value : Int) (op : Operator) (r : Expr)
  | right (value : Int) (l : Expr) (op : Operator)
  | element (value : Int) (name : String) (earlier later : List Expr)

namespace Hole

/-- The node with the operand. -/
def fill (operand : Expr) : Hole → Expr
  | negation value => .node .unary value "-" [operand]
  | left value op r => .node .binary value op.symbol [operand, r]
  | right value l op => .node .binary value op.symbol [l, operand]
  | element value name earlier later => .node .tuple value name (earlier ++ operand :: later)

/-- Whether an operand of the given strength is wrapped. -/
def wraps (s : Strength) : Hole → Bool
  | negation _ => s.wrapsNegated
  | left _ op _ => op.wrapsLeft s
  | right _ _ op => op.wrapsRight s
  | element .. => false

/-- The texts in front of the operand and behind it, without parentheses around it. -/
def sides : Hole → Except Error (String × String)
  | negation _ => .ok ("-", "")
  | left _ op r => do
      let wrap := op.wrapsRight (← r.strength)
      return ("", " " ++ op.symbol ++ " " ++ parenthesized wrap (← r.text))
  | right _ l op => do
      let wrap := op.wrapsLeft (← l.strength)
      return (parenthesized wrap (← l.text) ++ " " ++ op.symbol ++ " ", "")
  | element _ _ earlier later => do
      let texts ← Expr.texts earlier
      let texts' ← Expr.texts later
      return ("(" ++ String.join (texts.map (· ++ ", ")),
        String.join (texts'.map (", " ++ ·)) ++
          if texts.isEmpty && texts'.isEmpty then ",)" else ")")

/-- How tightly the node as written holds together. -/
def strength : Hole → Strength
  | negation _ => .negation
  | left _ op _ | right _ _ op => op.strength
  | element .. => .atom

/-- How tightly an operand has to hold together to stand there bare. -/
def required : Hole → Strength
  | negation _ => .negation
  | left _ op _ => op.left
  | right _ _ op => op.right
  | element .. => .sum

/-- The hole that a reader sees. -/
def asRead : Hole → Hole
  | negation _ => negation 0
  | left _ op r => left 0 op r.asRead
  | right _ l op => right 0 l.asRead op
  | element _ _ earlier later => element 0 "" (Expr.allAsRead earlier) (Expr.allAsRead later)

/-- A reader sees the operand in its hole. -/
theorem asRead_fill (hole : Hole) (operand : Expr) :
    (hole.fill operand).asRead = hole.asRead.fill operand.asRead := by
  cases hole with
  | negation value => rfl
  | left value op r => rfl
  | right value l op => rfl
  | element value name earlier later =>
      rw [fill, Expr.asRead, Expr.allAsRead_append, Expr.allAsRead]
      rfl

/-- An operand that is not wrapped is strong enough. -/
theorem required_le {hole : Hole} {s : Strength} (hs : .sum ≤ s) (h : hole.wraps s = false) :
    hole.required ≤ s := by
  cases hole with
  | negation value => exact Nat.le_of_not_lt (of_decide_eq_false h)
  | left value op r => exact Operator.left_le h
  | right value l op => exact Operator.right_le h
  | element value name earlier later => exact hs

theorem required_le_atom (hole : Hole) : hole.required ≤ .atom := by
  cases hole with
  | negation value => exact Nat.le_of_ble_eq_true rfl
  | left value op r => exact op.left_le_atom
  | right value l op => exact op.right_le_atom
  | element value name earlier later => exact Nat.le_of_ble_eq_true rfl

/-- The node as written has the same strength, whatever the operand is. -/
theorem strength_fill (hole : Hole) (operand : Expr) :
    (hole.fill operand).strength = .ok hole.strength := by
  cases hole with
  | negation value => rfl
  | left value op r => rw [fill, Expr.strength, Expr.operator_symbol]; rfl
  | right value l op => rw [fill, Expr.strength, Expr.operator_symbol]; rfl
  | element value name earlier later => rfl

end Hole

/-! ## Texts of tuples -/

/-- Texts with commas between them, around one of them. -/
theorem intercalate_append_cons (ts : List String) (t : String) (ts' : List String) :
    String.intercalate ", " (ts ++ t :: ts') =
      String.join (ts.map (· ++ ", ")) ++ t ++ String.join (ts'.map (", " ++ ·)) := by
  induction ts generalizing t with
  | nil =>
      induction ts' generalizing t with
      | nil => simp
      | cons t' ts' ih =>
          rw [List.nil_append, String.intercalate_cons_cons, ← List.nil_append (t' :: ts'), ih]
          simp [String.append_assoc]
  | cons t₀ ts ih =>
      obtain ⟨t₁, rest, hrest⟩ : ∃ t₁ rest, ts ++ t :: ts' = t₁ :: rest := by
        cases ts <;> exact ⟨_, _, rfl⟩
      rw [List.cons_append, hrest, String.intercalate_cons_cons, ← hrest, ih]
      simp [String.append_assoc]

/-- The text of a tuple around one of its elements. -/
theorem Expr.tupleText_append_cons (ts : List String) (t : String) (ts' : List String) :
    Expr.tupleText (ts ++ t :: ts') = "(" ++ String.join (ts.map (· ++ ", ")) ++ t ++
      (String.join (ts'.map (", " ++ ·)) ++
        if ts.isEmpty && ts'.isEmpty then ",)" else ")") := by
  have hmany (ts ts' : List String) (h : (ts.isEmpty && ts'.isEmpty) = false) :
      Expr.tupleText (ts ++ t :: ts') = "(" ++ String.intercalate ", " (ts ++ t :: ts') ++ ")" := by
    rw [Expr.tupleText]
    rintro element helement
    simp_all [List.append_eq_singleton_iff]
  by_cases hempty : (ts.isEmpty && ts'.isEmpty) = true
  · rw [if_pos hempty]
    rw [Bool.and_eq_true, List.isEmpty_iff, List.isEmpty_iff] at hempty
    obtain ⟨rfl, rfl⟩ := hempty
    simp [Expr.tupleText, String.append_assoc]
  · rw [if_neg hempty, hmany ts ts' (Bool.eq_false_iff.2 hempty), intercalate_append_cons]
    simp [String.append_assoc]

theorem Expr.texts_append_cons {earlier later : List Expr} {e : Expr} {ts ts' : List String}
    {t : String} (h : Expr.texts earlier = .ok ts) (ht : e.text = .ok t)
    (h' : Expr.texts later = .ok ts') :
    Expr.texts (earlier ++ e :: later) = .ok (ts ++ t :: ts') := by
  induction earlier generalizing ts with
  | nil =>
      cases h
      rw [List.nil_append, Expr.texts, ht, h']
      rfl
  | cons e₀ earlier ih =>
      obtain ⟨t₀, ht₀⟩ : ∃ t₀, e₀.text = .ok t₀ := by
        cases ht₀ : e₀.text with
        | error error => rw [Expr.texts, ht₀] at h; cases h
        | ok t₀ => exact ⟨t₀, rfl⟩
      obtain ⟨ts₀, hts₀⟩ : ∃ ts₀, Expr.texts earlier = .ok ts₀ := by
        cases hts₀ : Expr.texts earlier with
        | error error => rw [Expr.texts, ht₀, hts₀] at h; cases h
        | ok ts₀ => exact ⟨ts₀, rfl⟩
      rw [Expr.texts, ht₀, hts₀] at h
      cases h
      rw [List.cons_append, Expr.texts, ht₀, ih hts₀]
      rfl

/-! ## Tokens around an operand -/

/-- What the texts in front of an operand and behind it do to tokens between them. They are lexed by
themselves, reading goes on over some stack, phrases stay readable, and phrases of a given strength
are read as operands. -/
structure Surrounds (before after : String) (front back : List Token) (s s' : Strength)
    (fill : Expr → Expr) : Prop where
  lexes : ∀ (text : String) (ts : List Token), Lexes text.toList ts →
    Lexes (before ++ text ++ after).toList (front ++ ts ++ back)
  leads : ∀ stack, ∃ stack', ∀ rest,
    readFrom stack none (front ++ rest) = readFrom stack' none rest
  readable : ∀ ts, Readable .sum ts → Readable .sum (front ++ ts ++ back)
  reads : ∀ ts e, Reads s ts e → Reads s' (front ++ ts ++ back) (fill e)

namespace Surrounds

variable {before after before' after' : String} {front back front' back' : List Token}
  {s s' t t' : Strength} {fill fill' : Expr → Expr}

theorem nothing (s : Strength) : Surrounds "" "" [] [] s s id where
  lexes text ts h := by simpa using h
  leads stack := ⟨stack, fun _ => rfl⟩
  readable ts h := by simpa using h
  reads ts e h := by simpa using h

/-- Parentheses. -/
theorem group : Surrounds "(" ")" [.opening] [.closing] .sum .atom id where
  lexes text ts h := by
    rw [String.toList_append, String.toList_append]
    exact ((lexesAny_opening.append_lexes h).append lexesAny_closing (by decide)).lexes
  leads stack := ⟨.bracket [] :: stack, fun _ => rfl⟩
  readable ts h := h.group.looser (by decide)
  reads ts e h := .group ts e h

theorem looser (h : Surrounds before after front back s s' fill) (ht : s ≤ t) (ht' : t' ≤ s') :
    Surrounds before after front back t t' fill :=
  { h with reads ts e hreads := .looser _ _ _ _ ht' (h.reads ts e (.looser _ _ _ _ ht hreads)) }

/-- One surrounding inside another one. -/
theorem comp (outer : Surrounds before after front back t s' fill)
    (inner : Surrounds before' after' front' back' s t fill') :
    Surrounds (before ++ before') (after' ++ after) (front ++ front') (back' ++ back) s s'
      (fill ∘ fill') where
  lexes text ts h := by
    have hlexes := outer.lexes _ _ (inner.lexes text ts h)
    simpa [String.append_assoc, List.append_assoc] using hlexes
  leads stack := by
    obtain ⟨stack', hstack⟩ := outer.leads stack
    obtain ⟨stack'', hstack'⟩ := inner.leads stack'
    exact ⟨stack'', fun rest => by rw [List.append_assoc, hstack, hstack']⟩
  readable ts h := by
    have hreadable := outer.readable _ (inner.readable ts h)
    simpa [List.append_assoc] using hreadable
  reads ts e h := by
    have hreads := outer.reads _ _ (inner.reads ts e h)
    simpa [List.append_assoc] using hreads

theorem negation : Surrounds "-" "" [.operator .sub] [] .negation .negation (.unary "-") where
  lexes text ts h := by
    rw [String.append_empty, String.toList_append, List.append_nil]
    exact lexesAny_minus.append_lexes h
  leads stack := ⟨.negation :: stack, fun _ => rfl⟩
  readable ts h := by simpa using h.negation
  reads ts e h := by simpa using Reads.negation ts e h

variable {op : Operator} {ls rs : List Token} {ltext rtext : String} {l r : Expr}

theorem left (hlex : Lexes rtext.toList rs) (hreads : Reads op.right rs r) :
    Surrounds "" (" " ++ op.symbol ++ " " ++ rtext) [] (.operator op :: rs) op.left op.strength
      (.binary op.symbol · r) where
  lexes text ts h := by
    have hlexes := (h.append (lexesAny_operator op) (by decide)).append_lexes hlex
    simpa [String.append_assoc] using hlexes
  leads stack := ⟨stack, fun _ => rfl⟩
  readable ts h := h.binary op (Readable.looser ⟨r, hreads⟩ op.sum_le_right)
  reads ts l h := h.binary hreads

theorem right (hlex : Lexes ltext.toList ls) (hreads : Reads op.left ls l) :
    Surrounds (ltext ++ " " ++ op.symbol ++ " ") "" (ls ++ [.operator op]) [] op.right op.strength
      (.binary op.symbol l) where
  lexes text ts h := by
    have hlexes := (hlex.append (lexesAny_operator op) (by decide)).append_lexes h
    simpa [String.append_assoc] using hlexes
  leads stack := by
    obtain ⟨stack', operand, hreaches⟩ := hreads.reaches stack
    obtain ⟨l', -, hrun, -⟩ := hreaches.behind op
    exact ⟨_, fun rest => by rw [List.append_assoc]; exact hrun rest⟩
  readable ts h := by
    simpa using Readable.behind ⟨l, hreads⟩ h
  reads ts r h := by
    simpa using hreads.binary h

/-! ### Elements of a tuple -/

variable {texts texts' : List String} {es es' : List Expr}

/-- Elements, each with a comma behind it, in front of another one. -/
theorem exists_earlier (h : List.Forall₂ (Phrase .sum) texts es) :
    ∃ front, (∀ text ts, Lexes text.toList ts →
        Lexes (String.join (texts.map (· ++ ", ")) ++ text).toList (front ++ ts)) ∧
      (∀ elements stack rest, readFrom (.bracket elements :: stack) none (front ++ rest) =
        readFrom (.bracket (elements ++ es) :: stack) none rest) ∧
      ∀ ts es', ReadsList ts es' → ReadsList (front ++ ts) (es ++ es') := by
  induction h with
  | nil =>
      refine ⟨[], fun text ts h => by simpa using h, fun elements stack rest => ?_, fun _ _ h => h⟩
      rw [List.append_nil, List.nil_append]
  | @cons text e texts es hhead _ ih =>
      obtain ⟨ts, hlex, hreads⟩ := hhead
      obtain ⟨front, hlexes, hleads, hlist⟩ := ih
      refine ⟨ts ++ .comma :: front, ?_, ?_, ?_⟩
      · intro text' us h
        have hlex' := (hlex.append lexesAny_separator (by decide)).append_lexes (hlexes text' us h)
        simpa [String.append_assoc] using hlex'
      · intro elements stack rest
        obtain ⟨stack', operand, hrun, hreduce⟩ := hreads.readsTo _ (fits_bracket elements stack)
        have hbracket := hreduce .sum (Nat.le_refl _) (.inl (by decide))
        rw [reduce_bracket] at hbracket
        rw [List.append_assoc, hrun, List.cons_append, readFrom, hbracket]
        refine (hleads _ _ _).trans ?_
        rw [List.append_assoc, List.singleton_append]
      · intro us es' h
        rw [List.append_assoc]
        exact .cons _ _ _ _ hreads (hlist us es' h)

/-- Elements, each with a comma in front of it, behind another one. -/
theorem exists_later (h : List.Forall₂ (Phrase .sum) texts es) :
    ∃ back, (∀ text ts, Lexes text.toList ts →
        Lexes (text ++ String.join (texts.map (", " ++ ·))).toList (ts ++ back)) ∧
      ∀ ts e, Reads .sum ts e → ReadsList (ts ++ back) (e :: es) := by
  induction h with
  | nil =>
      refine ⟨[], fun text ts h => by simpa using h, fun ts e h => ?_⟩
      rw [List.append_nil]
      exact .one ts e h
  | @cons text e texts es hhead _ ih =>
      obtain ⟨ts, hlex, hreads⟩ := hhead
      obtain ⟨back, hlexes, hlist⟩ := ih
      refine ⟨.comma :: (ts ++ back), ?_, fun us e' h => .cons _ _ _ _ h (hlist ts e hreads)⟩
      intro text' us h
      have hlex' := (h.append lexesAny_separator (by decide)).append_lexes (hlexes text ts hlex)
      simpa [String.append_assoc] using hlex'

/-- The elements of a tuple around one of them. -/
theorem element (h : List.Forall₂ (Phrase .sum) texts es)
    (h' : List.Forall₂ (Phrase .sum) texts' es') :
    ∃ front back, Surrounds ("(" ++ String.join (texts.map (· ++ ", ")))
      (String.join (texts'.map (", " ++ ·)) ++
        if texts.isEmpty && texts'.isEmpty then ",)" else ")")
      front back .sum .atom fun e => .tuple (es ++ e :: es') := by
  obtain ⟨front, hlexes, hleads, hlist⟩ := exists_earlier h
  obtain ⟨back, hlexes', hlist'⟩ := exists_later h'
  -- A tuple of one element ends with a comma.
  obtain ⟨ends, hends, hreads⟩ : ∃ ends,
      (∃ c rest, Token.isNameChar c = false ∧
        (if texts.isEmpty && texts'.isEmpty then ",)" else ")" : String).toList = c :: rest ∧
        LexesAny (c :: rest) ends) ∧
      ∀ ts e, Reads .sum ts e →
        Reads .atom (.opening :: (front ++ ts ++ back ++ ends)) (.tuple (es ++ e :: es')) := by
    by_cases hempty : (texts.isEmpty && texts'.isEmpty) = true
    · refine ⟨[.comma, .closing], ⟨',', [')'], by decide, ?_, ?_⟩, fun ts e hts => ?_⟩
      · rw [if_pos hempty]
        rfl
      · exact lexesAny_comma.append lexesAny_closing
      · rw [List.append_assoc front]
        exact .tupleComma _ _ (hlist _ _ (hlist' ts e hts))
    · refine ⟨[.closing], ⟨')', [], by decide, ?_, lexesAny_closing⟩, fun ts e hts => ?_⟩
      · rw [if_neg hempty]
        rfl
      · rw [List.append_assoc front]
        refine .tuple _ _ (hlist _ _ (hlist' ts e hts)) ?_
        have hlength := h.length_eq
        have hlength' := h'.length_eq
        rw [Bool.and_eq_true, List.isEmpty_iff_length_eq_zero, List.isEmpty_iff_length_eq_zero]
          at hempty
        rw [List.length_append, List.length_cons]
        omega
  refine ⟨.opening :: front, back ++ ends, ?_, ?_, ?_, ?_⟩
  · intro text ts hts
    obtain ⟨c, rest, hc, htail, hlex⟩ := hends
    have hlex' := (lexesAny_opening.append_lexes (hlexes _ _ (hlexes' text ts hts))).append hlex hc
    rw [← htail] at hlex'
    simpa [String.append_assoc] using hlex'.lexes
  · exact fun stack => ⟨.bracket ([] ++ es) :: stack, fun rest => hleads [] stack rest⟩
  · rintro ts ⟨e, hts⟩
    have hatom : Readable .atom (.opening :: front ++ ts ++ (back ++ ends)) :=
      ⟨_, by simpa using hreads ts e hts⟩
    exact hatom.looser (by decide)
  · intro ts e hts
    simpa using hreads ts e hts

end Surrounds

/-! ## Parentheses that matter -/

namespace Hole

variable {hole : Hole} {op : Operator} {ls rs : List Token} {l r : Expr}

/-- Whether the parentheses around an operand of the given strength make no difference. A minus sign
is read behind a power without them, too. -/
def spares (s : Strength) : Hole → Bool
  | right _ _ .pow => s = .negation
  | _ => false

/-- Wherever the tokens stand, no tree is read from them with a wrapped operand in parentheses and
also with the bare operand. -/
def Separates (hole : Hole) (front back : List Token) : Prop :=
  ∀ s ts x, Splits s ts x → hole.wraps s = true → hole.spares s = false → ∀ stack more e,
    readFrom stack none (front ++ .opening :: (ts ++ .closing :: (back ++ more))) = some e →
    readFrom stack none (front ++ (ts ++ (back ++ more))) = some e → False

theorem separates_negation (value : Int) : (negation value).Separates [.operator .sub] [] := by
  intro s ts x h hwraps _ stack more e hwrapped hbare
  have hs : s < .negation := of_decide_eq_true hwraps
  have hholds : s ≤ Pending.negation.strength := Nat.le_of_lt hs
  exact h.differs_behind hs hholds hwrapped hbare

theorem separates_left (value : Int) (op : Operator) (r : Expr) (rs : List Token) :
    (left value op r).Separates [] (.operator op :: rs) := by
  intro s ts x h hwraps _ stack more e hwrapped hbare
  exact h.differs_in_front hwraps hwrapped hbare

theorem separates_right (value : Int) (l' : Expr) (hreads : Reads op.left ls l) :
    (right value l' op).Separates (ls ++ [.operator op]) [] := by
  intro s ts x h hwraps hspares stack more e hwrapped hbare
  obtain ⟨stack', operand, hreaches⟩ := hreads.reaches stack
  obtain ⟨l', -, hrun, -⟩ := hreaches.behind op
  rw [List.append_assoc, List.singleton_append, hrun] at hwrapped hbare
  have hweak : s < .negation ∧ s ≤ (Pending.operator op l').strength := by
    cases op with
    | pow =>
        have hlt : s < Strength.power := of_decide_eq_true hwraps
        have hne : s ≠ Strength.negation := of_decide_eq_false hspares
        exact ⟨Nat.lt_of_le_of_ne (Nat.le_of_lt_succ hlt) hne, Nat.le_of_lt hlt⟩
    | add | sub =>
        have hle : s ≤ Strength.sum := of_decide_eq_true hwraps
        exact ⟨Nat.lt_of_le_of_lt hle (by decide), hle⟩
    | mul | floorDiv | mod =>
        have hle : s ≤ Strength.product := of_decide_eq_true hwraps
        exact ⟨Nat.lt_of_le_of_lt hle (by decide), hle⟩
  exact h.differs_behind hweak.1 hweak.2 hwrapped hbare

theorem separates_element (value : Int) (name : String) (earlier later : List Expr)
    (front back : List Token) : (element value name earlier later).Separates front back :=
  fun _ _ _ _ hwraps => absurd hwraps Bool.false_ne_true

/-! ## Holes of well-formed nodes -/

/-- What is written around an operand of a node, and how it is read: the texts and the tokens in
front of the operand and behind it. -/
structure Written (hole : Hole) (before after : String) (front back : List Token) : Prop where
  sides : hole.sides = .ok (before, after)
  text : ∀ operand s t, operand.strength = .ok s → operand.text = .ok t →
    (hole.fill operand).text = .ok (before ++ parenthesized (hole.wraps s) t ++ after)
  surrounds : Surrounds before after front back hole.required hole.strength hole.asRead.fill
  separates : hole.Separates front back

end Hole

namespace Expr.WellFormed

/-- The operands of a well-formed node are well formed. -/
theorem of_mem_operands {kind : ExprKind} {value : Int} {name : String} {operands : List Expr}
    {e : Expr} (h : (node kind value name operands).WellFormed)
    (hkind : kind = .unary ∨ kind = .binary ∨ kind = .tuple) (he : e ∈ operands) :
    e.WellFormed := by
  cases h with
  | constant | empty | name => simp at hkind
  | tuple _ _ _ hall => exact hall e he
  | negation _ operand h => exact List.mem_singleton.1 he ▸ h
  | binary _ op l r hl hr =>
      obtain rfl | he := List.mem_cons.1 he
      · exact hl
      · exact List.mem_singleton.1 he ▸ hr

/-- Every operand of a well-formed node has a hole. -/
theorem exists_hole {kind : ExprKind} {value : Int} {name : String} {earlier later : List Expr}
    {x : Expr} (h : (node kind value name (earlier ++ x :: later)).WellFormed)
    (hkind : kind = .unary ∨ kind = .binary ∨ kind = .tuple) :
    ∃ hole : Hole, ∀ y, hole.fill y = node kind value name (earlier ++ y :: later) := by
  generalize hoperands : earlier ++ x :: later = operands at h
  cases h with
  | constant | empty | name => simp at hkind
  | tuple _ _ _ hall => exact ⟨.element value name earlier later, fun _ => rfl⟩
  | negation _ operand h =>
      obtain ⟨rfl, hlast⟩ | ⟨-, hlast⟩ := List.append_eq_singleton_iff.1 hoperands
      · obtain ⟨rfl, rfl⟩ := List.cons.inj hlast
        exact ⟨.negation value, fun _ => rfl⟩
      · cases hlast
  | binary _ op l r hl hr =>
      obtain ⟨rfl, hfirst⟩ | ⟨earlier, rfl, hlast⟩ := List.append_eq_cons_iff.1 hoperands
      · obtain ⟨rfl, rfl⟩ := List.cons.inj hfirst
        exact ⟨.left value op r, fun _ => rfl⟩
      · obtain ⟨rfl, hlast⟩ | ⟨-, hlast⟩ := List.append_eq_singleton_iff.1 hlast.symm
        · obtain ⟨rfl, rfl⟩ := List.cons.inj hlast
          exact ⟨.right value l op, fun _ => rfl⟩
        · cases hlast

theorem operand {hole : Hole} {x : Expr} (h : (hole.fill x).WellFormed) : x.WellFormed := by
  cases hole with
  | negation value => exact of_mem_operands h (by simp) List.mem_cons_self
  | left value op r => exact of_mem_operands h (by simp) List.mem_cons_self
  | right value l op =>
      exact of_mem_operands h (by simp) (List.mem_cons_of_mem l List.mem_cons_self)
  | element value name earlier later =>
      exact of_mem_operands h (by simp) (List.mem_append_right earlier List.mem_cons_self)

/-- What is written around an operand of a well-formed node. -/
theorem exists_sides {hole : Hole} {x : Expr} (h : (hole.fill x).WellFormed) :
    ∃ before after front back, hole.Written before after front back := by
  cases hole with
  | negation value =>
      refine ⟨_, _, _, _, rfl, fun operand s t hs ht => ?_, .negation,
        Hole.separates_negation value⟩
      rw [Hole.fill, Expr.text, hs, ht, String.append_empty]
      rfl
  | left value op r =>
      have hr : r.WellFormed :=
        of_mem_operands h (by simp) (List.mem_cons_of_mem x List.mem_cons_self)
      obtain ⟨s', t', hs', ht', hsum, hphrase⟩ := hr.written
      obtain ⟨rs, hlex, hreads⟩ := hphrase.parenthesized hsum op.right_le_atom Operator.right_le
      refine ⟨_, _, _, _, ?_, fun operand s t hs ht => ?_, .left hlex hreads,
        Hole.separates_left value op r rs⟩
      · rw [Hole.sides, hs', ht']
        rfl
      · rw [Hole.fill, Expr.text, operator_symbol, hs, ht, hs', ht',
          String.empty_append, ← String.append_assoc, ← String.append_assoc, ← String.append_assoc]
        rfl
  | right value l op =>
      have hl : l.WellFormed := of_mem_operands h (by simp) List.mem_cons_self
      obtain ⟨s', t', hs', ht', hsum, hphrase⟩ := hl.written
      obtain ⟨ls, hlex, hreads⟩ := hphrase.parenthesized hsum op.left_le_atom Operator.left_le
      refine ⟨_, _, _, _, ?_, fun operand s t hs ht => ?_, .right hlex hreads,
        Hole.separates_right value l hreads⟩
      · rw [Hole.sides, hs', ht']
        rfl
      · rw [Hole.fill, Expr.text, operator_symbol, hs, ht, hs', ht',
          String.append_empty]
        rfl
  | element value name earlier later =>
      obtain ⟨ts, htexts, hphrases⟩ := exists_texts fun e he =>
        (of_mem_operands h (by simp) (List.mem_append_left _ he)).written
      obtain ⟨ts', htexts', hphrases'⟩ := exists_texts fun e he =>
        (of_mem_operands h (by simp) (List.mem_append_right _ (List.mem_cons_of_mem x he))).written
      obtain ⟨front, back, hsurrounds⟩ := Surrounds.element hphrases hphrases'
      refine ⟨_, _, front, back, ?_, fun operand s t hs ht => ?_, hsurrounds,
        Hole.separates_element value name earlier later front back⟩
      · rw [Hole.sides, htexts, htexts']
        rfl
      · rw [Hole.fill, Expr.text, texts_append_cons htexts ht htexts']
        exact congrArg Except.ok (tupleText_append_cons ts t ts')

end Expr.WellFormed

end TileTrace
