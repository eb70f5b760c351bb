import TileTrace.Proofs.OperandPlaces

/-!
# Parentheses around operands

A list of holes, the innermost first, is the way from an operand up to a whole
tree. `WellFormed.exists_place` says that there is one for every operand.
`surroundings` is what is written in front of the operand and behind it, and
`WellFormed.exists_surroundings` says how its tokens are read. A pair of
parentheses belongs to the innermost hole, so taking it away leaves what is
written around the node as it is. `Expr.parentheses_needed` is the main theorem: a text
without one of its pairs is still a text, and it is read as another tree, unless
the pair is around a minus sign behind a power.
-/

namespace TileTrace

open Hole

/-! ## Nested holes -/

namespace Hole

/-- The tree with the operand in the innermost hole. -/
def fillAll : List Hole → Expr → Expr
  | [], operand => operand
  | hole :: outer, operand => fillAll outer (hole.fill operand)

/-- The texts in front of an operand of the given strength and behind it, with the parentheses that
are written around it. -/
def surroundings (s : Strength) : List Hole → Except Error (String × String)
  | [] => .ok ("", "")
  | hole :: outer => do
      let (before, after) ← hole.sides
      let (before', after') ← surroundings hole.strength outer
      if hole.wraps s then return (before' ++ before ++ "(", ")" ++ (after ++ after'))
      else return (before' ++ before, after ++ after')

/-- Only one text in front of parentheses and one behind them make up the surroundings. -/
theorem surroundings_unique {holes : List Hole} {s : Strength}
    {before after before' after' : String}
    (h : surroundings s holes = .ok (before ++ "(", ")" ++ after))
    (h' : surroundings s holes = .ok (before' ++ "(", ")" ++ after')) :
    before = before' ∧ after = after' := by
  obtain ⟨hbefore, hafter⟩ := Prod.mk.inj (Except.ok.inj (h.symm.trans h'))
  exact ⟨(String.append_left_inj _).1 hbefore, (String.append_right_inj _).1 hafter⟩

/-- A reader sees the operand in its holes. -/
theorem asRead_fillAll (holes : List Hole) (operand : Expr) :
    (fillAll holes operand).asRead = fillAll (holes.map asRead) operand.asRead := by
  induction holes generalizing operand with
  | nil => rfl
  | cons hole outer ih => rw [fillAll, ih, asRead_fill, List.map_cons, fillAll]

theorem sum_le_strength (hole : Hole) : .sum ≤ hole.strength := by
  cases hole with
  | negation value => exact Nat.le_of_ble_eq_true rfl
  | left value op r => exact op.sum_le_strength
  | right value l op => exact op.sum_le_strength
  | element value name earlier later => exact Nat.le_of_ble_eq_true rfl

end Hole

/-- What is written somewhere in a tree: the tree, the operands of its root, the operands of
these, and so on. The operands of numbers and names are not written. -/
inductive Expr.Occurs (tree : Expr) : Expr → Prop where
  | root : Occurs tree tree
  | operand (kind : ExprKind) (value : Int) (name : String) (earlier later : List Expr) (x : Expr) :
      Occurs tree (node kind value name (earlier ++ x :: later)) →
      kind = .unary ∨ kind = .binary ∨ kind = .tuple → Occurs tree x

namespace Expr.WellFormed

variable {hole : Hole} {holes outer : List Hole} {tree x : Expr} {s : Strength}

/-- An operand in a well-formed tree is well formed. -/
theorem of_fillAll (h : (fillAll holes x).WellFormed) : x.WellFormed := by
  induction holes generalizing x with
  | nil => exact h
  | cons hole outer ih => exact (ih h).operand

variable {kind : ExprKind} {value : Int} {name : String} {earlier later : List Expr}

/-- From holes that lead to a node, one more leads to an operand of it. -/
theorem exists_inner (h : tree.WellFormed)
    (houter : fillAll outer (node kind value name (earlier ++ x :: later)) = tree)
    (hkind : kind = .unary ∨ kind = .binary ∨ kind = .tuple) :
    ∃ hole, fillAll (hole :: outer) x = tree ∧
      ∀ y, hole.fill y = node kind value name (earlier ++ y :: later) := by
  rw [← houter] at h
  obtain ⟨hole, hhole⟩ := h.of_fillAll.exists_hole hkind
  exact ⟨hole, by rw [fillAll, hhole, houter], hhole⟩

/-- Holes lead to everything that is written in a well-formed tree. -/
theorem exists_fillAll (h : tree.WellFormed) (hx : tree.Occurs x) :
    ∃ holes, fillAll holes x = tree := by
  induction hx with
  | root => exact ⟨[], rfl⟩
  | operand kind value name earlier later x _ hkind ih =>
      obtain ⟨outer, houter⟩ := ih
      obtain ⟨hole, hhole, -⟩ := h.exists_inner houter hkind
      exact ⟨hole :: outer, hhole⟩

/-- Holes lead to the place of every operand in a well-formed tree. -/
theorem exists_place (h : tree.WellFormed)
    (hx : tree.Occurs (node kind value name (earlier ++ x :: later)))
    (hkind : kind = .unary ∨ kind = .binary ∨ kind = .tuple) :
    ∃ hole outer, fillAll (hole :: outer) x = tree ∧
      ∀ y, hole.fill y = node kind value name (earlier ++ y :: later) := by
  obtain ⟨outer, houter⟩ := h.exists_fillAll hx
  obtain ⟨hole, hhole⟩ := h.exists_inner houter hkind
  exact ⟨hole, outer, hhole⟩

/-- What is written around an operand deep in a well-formed tree, and how it is read. -/
theorem exists_surroundings (h : (fillAll holes x).WellFormed) (hs : x.strength = .ok s)
    (hsum : .sum ≤ s) :
    ∃ before after front back, surroundings s holes = .ok (before, after) ∧
      (∀ t, x.text = .ok t → (fillAll holes x).text = .ok (before ++ t ++ after)) ∧
      Surrounds before after front back s .sum (fillAll (holes.map Hole.asRead)) := by
  induction holes generalizing x s with
  | nil =>
      refine ⟨_, _, _, _, rfl, fun t ht => ?_, (Surrounds.nothing s).looser (Nat.le_refl _) hsum⟩
      rw [fillAll, ht, String.empty_append, String.append_empty]
  | cons hole outer ih =>
      obtain ⟨before, after, front, back, hhole⟩ := exists_sides (of_fillAll h)
      obtain ⟨before', after', front', back', houter, htext, hsurrounds⟩ :=
        ih h (hole.strength_fill x) hole.sum_le_strength
      cases hwraps : hole.wraps s with
      | true =>
          refine ⟨before' ++ (before ++ "("), (")" ++ after) ++ after', _, _, ?_, fun t ht => ?_,
            hsurrounds.comp (hhole.surrounds.comp
              (Surrounds.group.looser hsum hole.required_le_atom))⟩
          · rw [surroundings, hhole.sides, houter, String.append_assoc, ← String.append_assoc]
            exact if_pos hwraps
          · have hinner := htext _ (hhole.text x s t hs ht)
            rw [hwraps] at hinner
            simpa [fillAll, parenthesized, String.append_assoc] using hinner
      | false =>
          refine ⟨before' ++ before, after ++ after', _, _, ?_, fun t ht => ?_,
            hsurrounds.comp
              (hhole.surrounds.looser (required_le hsum hwraps) (Nat.le_refl _))⟩
          · rw [surroundings, hhole.sides, houter]
            exact if_neg (Bool.eq_false_iff.1 hwraps)
          · have hinner := htext _ (hhole.text x s t hs ht)
            rw [hwraps] at hinner
            simpa [fillAll, parenthesized, String.append_assoc] using hinner

/-! ## What is outermost in a text -/

/-- A well-formed tree is written as what its root is. -/
theorem exists_splits (h : x.WellFormed) :
    ∃ s text ts, x.strength = .ok s ∧ x.text = .ok text ∧ Lexes text.toList ts ∧
      Splits s ts x.asRead := by
  have hatom (hstrength : x.strength = .ok .atom) : ∃ s text ts, x.strength = .ok s ∧
      x.text = .ok text ∧ Lexes text.toList ts ∧ Splits s ts x.asRead := by
    obtain ⟨s, text, hs, htext, -, ts, hlex, hreads⟩ := h.written
    obtain rfl : s = .atom := Except.ok.inj (hs.symm.trans hstrength)
    exact ⟨_, text, ts, hs, htext, hlex, .atom ts _ hreads⟩
  cases h with
  | constant value name operands =>
      by_cases hneg : value < 0
      · refine ⟨.negation, _, [.operator .sub, .number value.natAbs], ?_, rfl, ?_, ?_⟩
        · rw [strength, if_pos hneg]
        · rw [Decimal.ofInt, if_pos hneg, String.toList_append]
          exact lexesAny_minus.append_lexes (lexes_number value.natAbs)
        · rw [asRead, if_pos hneg]
          exact .negation _ _ (.looser _ _ _ _ (by decide) (.number value.natAbs))
      · exact hatom (by rw [strength, if_neg hneg])
  | empty value name operands => exact hatom rfl
  | name value name operands hname => exact hatom rfl
  | tuple value name elements hall => exact hatom rfl
  | negation value operand h =>
      obtain ⟨s, t, hs, ht, hsum, hphrase⟩ := h.written
      have hbare (hwrap : s.wrapsNegated = false) : .negation ≤ s :=
        Nat.le_of_not_lt (of_decide_eq_false hwrap)
      obtain ⟨ts, hlex, hreads⟩ := hphrase.parenthesized hsum (by decide) hbare
      refine ⟨.negation, "-" ++ parenthesized s.wrapsNegated t, _, rfl, ?_, ?_,
        .negation ts _ hreads⟩
      · rw [text, hs, ht]
        rfl
      · rw [String.toList_append]
        exact lexesAny_minus.append_lexes hlex
  | binary value op l r hl hr =>
      obtain ⟨s, t, hs, ht, hsum, hphrase⟩ := hl.written
      obtain ⟨s', t', hs', ht', hsum', hphrase'⟩ := hr.written
      obtain ⟨ls, hlexl, hreadsl⟩ := hphrase.parenthesized hsum op.left_le_atom Operator.left_le
      obtain ⟨rs, hlexr, hreadsr⟩ := hphrase'.parenthesized hsum' op.right_le_atom Operator.right_le
      refine ⟨op.strength, op.written s t s' t', _, ?_, ?_, ?_,
        .operator op ls rs _ _ hreadsl hreadsr⟩
      · rw [strength, operator_symbol]
        rfl
      · rw [text, operator_symbol, hs, hs', ht, ht']
        rfl
      · have hlex := (hlexl.append (lexesAny_operator op) (by decide)).append_lexes hlexr
        simpa [Operator.written] using hlex

end Expr.WellFormed

/-- What holds together as a negation is one, or a negative number. -/
theorem Expr.eq_negation_iff {x : Expr} {s : Strength} (hs : x.strength = .ok s) :
    s = .negation ↔ x.kind = .unary ∨ x.kind = .constant ∧ x.value < 0 := by
  cases x with
  | node kind value name operands =>
      cases kind with
      | constant =>
          obtain rfl := Except.ok.inj hs
          by_cases hneg : value < 0
          · simp [Expr.kind, Expr.value, hneg]
          · simp [Expr.kind, Expr.value, hneg, Strength.atom, Strength.negation]
      | none | name | tuple =>
          obtain rfl := Except.ok.inj hs
          simp [Expr.kind, Strength.atom, Strength.negation]
      | unary =>
          obtain rfl := Except.ok.inj hs
          simp [Expr.kind]
      | binary =>
          rw [strength] at hs
          cases hop : Expr.operator name with
          | error error => rw [hop] at hs; cases hs
          | ok op =>
              rw [hop] at hs
              have hne : op.strength ≠ .negation := by cases op <;> decide
              simpa [Expr.kind, ← Except.ok.inj hs] using hne

/-! ## Texts without a pair of parentheses -/

section Removal

variable {before after text : String} {front back front' back' ts : List Token} {s s' : Strength}
  {fill : Expr → Expr} {hole : Hole} {e x : Expr}

theorem Surrounds.readsText (h : Surrounds before after front back s .sum fill)
    (hlex : Lexes text.toList ts) (hreads : Reads s ts x) :
    ReadsText (before ++ text ++ after) (fill x) :=
  ⟨_, (h.lexes text ts hlex).lex_eq, h.reads ts x hreads⟩

theorem Hole.spares_iff :
    hole.spares s = true ↔ (∃ value l, hole = .right value l .pow) ∧ s = .negation := by
  cases hole with
  | right value l op => cases op <;> simp [spares]
  | negation | left | element => simp [spares]

/-- Whatever is written around the node, the tree that is read with the parentheses is not read
without them. -/
theorem Hole.Separates.not_reads (h : hole.Separates front back) (hsplits : Splits s ts x)
    (hwraps : hole.wraps s = true) (hspares : hole.spares s = false)
    (houter : Surrounds before after front' back' s' .sum fill)
    (hwrapped :
      Reads .sum (front' ++ (front ++ [.opening]) ++ ts ++ ([.closing] ++ back ++ back')) e) :
    ¬ Reads .sum (front' ++ front ++ ts ++ (back ++ back')) e := by
  intro hbare
  obtain ⟨stack, hleads⟩ := houter.leads []
  have hrun := hwrapped.readFrom_eq
  have hrun' := hbare.readFrom_eq
  simp only [List.append_assoc, List.cons_append, List.nil_append] at hrun hrun'
  rw [hleads] at hrun hrun'
  exact h s ts x hsplits hwraps hspares stack back' e hrun hrun'

end Removal

/-- Every operand in a well-formed tree has a place in holes, and a pair of parentheses around it is
needed. Without the pair, the text is still read as a tree. It is the same tree exactly if the
operand is the right one of a power, and is a minus sign or a negative number. -/
theorem Expr.parentheses_needed (hole : Hole) (outer : List Hole) (x : Expr) (s : Strength)
    (h : (fillAll (hole :: outer) x).WellFormed) (hs : x.strength = .ok s)
    (hwraps : hole.wraps s = true) :
    (∀ {kind : ExprKind} {value : Int} {name : String} {earlier later : List Expr} {y : Expr},
      (fillAll (hole :: outer) x).Occurs (node kind value name (earlier ++ y :: later)) →
      kind = .unary ∨ kind = .binary ∨ kind = .tuple →
      ∃ hole' outer', fillAll (hole' :: outer') y = fillAll (hole :: outer) x ∧
        ∀ z, hole'.fill z = node kind value name (earlier ++ z :: later)) ∧
    ∃ before inner after, surroundings s (hole :: outer) = .ok (before ++ "(", ")" ++ after) ∧
      x.text = .ok inner ∧
      (fillAll (hole :: outer) x).text = .ok (before ++ "(" ++ inner ++ ")" ++ after) ∧
      ReadsText (before ++ "(" ++ inner ++ ")" ++ after) (fillAll (hole :: outer) x).asRead ∧
      ∃ e, ReadsText (before ++ inner ++ after) e ∧
        (e = (fillAll (hole :: outer) x).asRead ↔
          (∃ value l, hole = .right value l .pow) ∧
            (x.kind = .unary ∨ x.kind = .constant ∧ x.value < 0)) := by
  refine ⟨fun hy hkind => h.exists_place hy hkind, ?_⟩
  have hnode : (hole.fill x).WellFormed := .of_fillAll h
  obtain ⟨s', inner, ts, hs', hinner, hlex, hsplits⟩ := hnode.operand.exists_splits
  obtain rfl : s = s' := Except.ok.inj (hs.symm.trans hs')
  obtain ⟨before, after, front, back, hhole⟩ := hnode.exists_sides
  have houter : (fillAll outer (hole.fill x)).WellFormed := h
  obtain ⟨before', after', front', back', houter, htext, hsurrounds⟩ :=
    houter.exists_surroundings (hole.strength_fill x) hole.sum_le_strength
  have hwrapped := hsurrounds.comp (hhole.surrounds.comp
    (Surrounds.group.looser hsplits.sum_le hole.required_le_atom))
  have hbare := hsurrounds.comp hhole.surrounds
  obtain ⟨e, hreads⟩ := hbare.readable ts ⟨_, .looser _ _ _ _ hsplits.sum_le hsplits.reads⟩
  refine ⟨before' ++ before, inner, after ++ after', ?_, hinner, ?_, ?_, e,
    ⟨_, (hbare.lexes inner ts hlex).lex_eq, hreads⟩, ?_⟩
  · rw [surroundings, hhole.sides, houter]
    exact if_pos hwraps
  · have hwritten := htext _ (hhole.text x s inner hs hinner)
    rw [hwraps] at hwritten
    simpa [fillAll, parenthesized, String.append_assoc] using hwritten
  · have hreads := hwrapped.readsText hlex hsplits.reads
    rw [asRead_fillAll]
    simpa [fillAll, String.append_assoc] using hreads
  · rw [← eq_negation_iff hs, asRead_fillAll]
    constructor
    · rintro rfl
      by_contra hneeded
      have hspares := Bool.eq_false_iff.2 (mt spares_iff.1 hneeded)
      exact hhole.separates.not_reads hsplits hwraps hspares hsurrounds
        (hwrapped.reads ts _ hsplits.reads) hreads
    · rintro ⟨⟨value, l, rfl⟩, rfl⟩
      exact hreads.unique (hbare.reads ts _ hsplits.reads)

/-- A sum times a power with a negated exponent. -/
def Expr.scaled : Expr :=
  .binary "*" (.binary "+" (.reference "a") (.reference "b"))
    (.binary "**" (.reference "c") (.unary "-" (.reference "d")))

/-- The sum needs its parentheses, and the exponent does not. -/
theorem Expr.parentheses_needed_scaled :
    scaled.text = .ok "(a + b) * c ** (-d)" ∧
      (∃ e, ReadsText "a + b * c ** (-d)" e ∧ e ≠ scaled) ∧
      ReadsText "(a + b) * c ** -d" scaled := by
  have hscaled : scaled.WellFormed :=
    .binary 0 .mul _ _ (.binary 0 .add _ _ (.name _ _ _ (by decide)) (.name _ _ _ (by decide)))
      (.binary 0 .pow _ _ (.name _ _ _ (by decide)) (.negation _ _ (.name _ _ _ (by decide))))
  refine ⟨rfl, ?_, ?_⟩
  · obtain ⟨-, before, inner, after, haround, hinner, -, -, e, hreads, hsame⟩ :=
      parentheses_needed
        (.left 0 .mul (.binary "**" (.reference "c") (.unary "-" (.reference "d")))) []
        (.binary "+" (.reference "a") (.reference "b")) .sum hscaled rfl rfl
    obtain ⟨rfl, rfl⟩ : before = "" ∧ after = " * c ** (-d)" := surroundings_unique haround rfl
    obtain rfl : inner = "a + b" := Except.ok.inj (hinner.symm.trans rfl)
    exact ⟨e, hreads, fun heq => nomatch (hsame.1 heq).1⟩
  · obtain ⟨-, before, inner, after, haround, hinner, -, -, e, hreads, hsame⟩ :=
      parentheses_needed (.right 0 (.reference "c") .pow)
        [.right 0 (.binary "+" (.reference "a") (.reference "b")) .mul]
        (.unary "-" (.reference "d")) .negation hscaled rfl rfl
    obtain ⟨rfl, rfl⟩ : before = "(a + b) * c ** " ∧ after = "" := surroundings_unique haround rfl
    obtain rfl : inner = "-d" := Except.ok.inj (hinner.symm.trans rfl)
    obtain rfl := hsame.2 ⟨⟨0, .reference "c", rfl⟩, .inl rfl⟩
    exact hreads

end TileTrace
