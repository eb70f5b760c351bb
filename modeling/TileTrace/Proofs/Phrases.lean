import TileTrace.Proofs.Unparsing

/-!
# Phrases by their outermost operators

A phrase is an atom, a minus sign in front of a phrase, or an operator between
two phrases that are strong enough for their places. `Splits` tells these cases
apart, and `Reads.phrase_induction` is the induction that follows them. With it,
`Readable.negation` and `Readable.binary` say that phrases can be put together
however weak they are: a minus sign in front of a phrase and an operator between
two phrases make a phrase, although not always with these phrases as its operands.
-/

namespace TileTrace

namespace Operator

/-- An operator in front is finished if it holds its operand as tightly as a left operand has to
hold together. -/
theorem limit_eq_left (op : Operator) : op.limit = op.left := by
  cases op <;> rfl

theorem limit_le_left (op : Operator) : op.limit ≤ op.left :=
  Nat.le_of_eq op.limit_eq_left

/-- Every operator but the power finishes a minus sign in front of it, and the left operand of a
power is an atom. -/
theorem limit_le_negation_or (op : Operator) : op.limit ≤ .negation ∨ .atom ≤ op.left := by
  cases op <;> decide

theorem operands_of_product (op : Operator) (h : op.strength = .product) :
    op.left = .product ∧ op.right = .negation := by
  cases op <;> first | exact ⟨rfl, rfl⟩ | exact absurd h (by decide)

theorem operands_of_sum (op : Operator) (h : op.strength = .sum) :
    op.left = .sum ∧ op.right = .product := by
  cases op <;> first | exact ⟨rfl, rfl⟩ | exact absurd h (by decide)

theorem sum_le_strength (op : Operator) : .sum ≤ op.strength := by
  cases op <;> decide

theorem strength_le_left (op : Operator) : op.strength ≤ op.left := by
  cases op <;> decide

/-- Only the power is weaker than its left operand has to be. -/
theorem left_le_strength (op : Operator) (h : op.strength < .negation) : op.left ≤ op.strength := by
  cases op <;> first | exact Nat.le_refl _ | exact absurd h (by decide)

theorem strength_le_power (op : Operator) : op.strength ≤ .power := by
  cases op <;> decide

/-- A limit for an operator is one for its right operand. -/
theorem le_right {op : Operator} {limit : Strength} (h : limit ≤ op.strength)
    (hnegation : limit ≤ .negation) : limit ≤ op.right := by
  cases op with
  | pow => exact hnegation
  | _ => exact Nat.le_trans h (by decide)

theorem sum_le_right (op : Operator) : .sum ≤ op.right := by
  cases op <;> decide

/-- An operator in a phrase that has to be wrapped in front of a sum or a product is weaker than
that, and its right operand is not. -/
theorem limit_of_wrapsLeft {op op' : Operator} (h : op.wrapsLeft op'.strength = true)
    (hpow : op ≠ .pow) : op'.strength < op.limit ∧ op.limit ≤ op'.right := by
  revert h hpow
  cases op <;> cases op' <;> decide

theorem right_le_negation (op : Operator) : op.right ≤ .negation := by
  cases op <;> decide

end Operator

/-- The tokens are a phrase of the given strength that is read as the tree, and what is outermost in
it has this strength. -/
inductive Splits : Strength → List Token → Expr → Prop where
  | atom (ts : List Token) (e : Expr) : Reads .atom ts e → Splits .atom ts e
  | negation (ts : List Token) (e : Expr) :
      Reads .negation ts e → Splits .negation (.operator .sub :: ts) (.unary "-" e)
  | operator (op : Operator) (ls rs : List Token) (l r : Expr) :
      Reads op.left ls l → Reads op.right rs r →
      Splits op.strength (ls ++ .operator op :: rs) (.binary op.symbol l r)

theorem Splits.reads {s : Strength} {ts : List Token} {e : Expr} (h : Splits s ts e) :
    Reads s ts e := by
  cases h with
  | atom ts e h => exact h
  | negation ts e h => exact .negation ts e h
  | operator op ls rs l r hl hr => exact hl.binary hr

theorem Splits.sum_le {s : Strength} {ts : List Token} {e : Expr} (h : Splits s ts e) :
    .sum ≤ s := by
  cases h with
  | atom | negation => decide
  | operator op => exact op.sum_le_strength

/-- Induction over phrases by what is outermost in them. -/
theorem Reads.phrase_induction {P : Strength → List Token → Expr → Prop}
    (atom : ∀ ts e, Reads .atom ts e → P .atom ts e)
    (negation : ∀ ts e, Reads .negation ts e → P .negation ts e →
      P .negation (.operator .sub :: ts) (.unary "-" e))
    (operator : ∀ op ls rs l r, Reads op.left ls l → P op.left ls l → Reads op.right rs r →
      P op.right rs r → P op.strength (ls ++ .operator op :: rs) (.binary op.symbol l r))
    (looser : ∀ s s' ts e, s ≤ s' → P s' ts e → P s ts e)
    {s : Strength} {ts : List Token} {e : Expr} (h : Reads s ts e) : P s ts e := by
  match h with
  | .number n => exact atom _ _ (.number n)
  | .empty => exact atom _ _ .empty
  | .name text hname => exact atom _ _ (.name text hname)
  | .group ts e h => exact atom _ _ (.group ts e h)
  | .unit => exact atom _ _ .unit
  | .tuple ts es hes htwo => exact atom _ _ (.tuple ts es hes htwo)
  | .tupleComma ts es hes => exact atom _ _ (.tupleComma ts es hes)
  | .power ls rs l r hl hr =>
      exact operator .pow ls rs l r hl (hl.phrase_induction atom negation operator looser) hr
        (hr.phrase_induction atom negation operator looser)
  | .negation ts e h =>
      exact negation ts e h (h.phrase_induction atom negation operator looser)
  | .product op ls rs l r hop hl hr =>
      have ihl := hl.phrase_induction atom negation operator looser
      have ihr := hr.phrase_induction atom negation operator looser
      obtain ⟨hleft, hright⟩ := op.operands_of_product hop
      rw [← hleft] at hl ihl
      rw [← hright] at hr ihr
      exact hop ▸ operator op ls rs l r hl ihl hr ihr
  | .sum op ls rs l r hop hl hr =>
      have ihl := hl.phrase_induction atom negation operator looser
      have ihr := hr.phrase_induction atom negation operator looser
      obtain ⟨hleft, hright⟩ := op.operands_of_sum hop
      rw [← hleft] at hl ihl
      rw [← hright] at hr ihr
      exact hop ▸ operator op ls rs l r hl ihl hr ihr
  | .looser s s' ts e hs h =>
      exact looser s s' ts e hs (h.phrase_induction atom negation operator looser)

/-! ## Readable tokens -/

/-- The tokens are a phrase of at least the given strength. -/
def Readable (s : Strength) (ts : List Token) : Prop :=
  ∃ e, Reads s ts e

namespace Readable

variable {s s' : Strength} {ts ls rs front : List Token}

theorem looser (h : Readable s' ts) (hs : s ≤ s') : Readable s ts := by
  obtain ⟨e, he⟩ := h
  exact ⟨e, .looser _ _ _ _ hs he⟩

theorem strong {op : Operator} (hl : Readable op.left ls) (hr : Readable op.right rs) :
    Readable op.strength (ls ++ .operator op :: rs) := by
  obtain ⟨l, hl⟩ := hl
  obtain ⟨r, hr⟩ := hr
  exact ⟨_, hl.binary hr⟩

/-- Tokens that make a phrase with every strong phrase behind them make one with every phrase. If it
is weak, only its first operand belongs to them. -/
theorem prefixed (hfront : ∀ ts, Readable s ts → Readable s' (front ++ ts)) (hs : s ≤ .negation)
    (hs' : .sum ≤ s') (hweak : ∀ op : Operator, op.strength < s → op.strength ≤ s')
    (h : Readable .sum ts) : Readable .sum (front ++ ts) := by
  have hmin {t : Strength} {ts : List Token} {e : Expr} (h : Reads t ts e) :
      Readable (min t s') (front ++ ts) := by
    have hstrong {t : Strength} {ts : List Token} (hst : s ≤ t) (h : Readable t ts) :
        Readable (min t s') (front ++ ts) :=
      (hfront ts (h.looser hst)).looser (Nat.min_le_right _ _)
    refine h.phrase_induction (P := fun t ts _ => Readable (min t s') (front ++ ts)) ?_ ?_ ?_ ?_
    · exact fun ts e h => hstrong (Nat.le_trans hs (by decide)) ⟨e, h⟩
    · exact fun ts e h _ => hstrong hs ⟨_, .negation ts e h⟩
    · intro op ls rs l r hl ihl hr _
      by_cases hop : s ≤ op.strength
      · exact hstrong hop ⟨_, hl.binary hr⟩
      · have hlt := Nat.lt_of_not_le hop
        obtain ⟨e, he⟩ := ihl
        have hleft : op.left ≤ min op.left s' := by
          refine Nat.le_min.2 ⟨Nat.le_refl _, Nat.le_trans ?_ (hweak op hlt)⟩
          exact op.left_le_strength (Nat.lt_of_lt_of_le hlt hs)
        rw [← List.append_assoc]
        exact (strong ⟨e, .looser _ _ _ _ hleft he⟩ ⟨r, hr⟩).looser (Nat.min_le_left _ _)
    · exact fun t t' ts e ht h => h.looser
        (Nat.le_min.2 ⟨Nat.le_trans (Nat.min_le_left _ _) ht, Nat.min_le_right _ _⟩)
  obtain ⟨e, h⟩ := h
  exact (hmin h).looser (Nat.le_min.2 ⟨Nat.le_refl _, hs'⟩)

/-- A minus sign can stand in front of every phrase. -/
theorem negation (h : Readable .sum ts) : Readable .sum (.operator .sub :: ts) := by
  have hstrong (ts : List Token) (h : Readable .negation ts) :
      Readable .negation ([.operator .sub] ++ ts) := by
    obtain ⟨e, h⟩ := h
    exact ⟨_, .negation ts e h⟩
  exact prefixed hstrong (Nat.le_refl _) (by decide) (fun op => Nat.le_of_lt) h

/-- Every phrase can stand behind an operator with a strong left operand. -/
theorem behind {op : Operator} (hl : Readable op.left ls) (h : Readable .sum rs) :
    Readable .sum (ls ++ .operator op :: rs) := by
  rw [List.append_cons]
  have hstrong (ts : List Token) (h : Readable op.right ts) :
      Readable op.strength (ls ++ [.operator op] ++ ts) := by
    rw [← List.append_cons]
    exact hl.strong h
  -- What is too weak for the right operand is not stronger than the operator itself.
  have hweak (op' : Operator) (h : op'.strength < op.right) : op'.strength ≤ op.strength := by
    cases op <;> cases op' <;> first | exact absurd h (by decide) | decide
  exact prefixed hstrong op.right_le_negation op.sum_le_strength hweak h

/-- An operator can stand between every two phrases. -/
theorem binary (op : Operator) (hl : Readable .sum ls) (hr : Readable .sum rs) :
    Readable .sum (ls ++ .operator op :: rs) := by
  obtain ⟨l, hl⟩ := hl
  refine hl.phrase_induction (P := fun _ ls _ => Readable .sum (ls ++ .operator op :: rs))
    ?_ ?_ ?_ ?_
  · exact fun ts e h => behind ⟨e, .looser _ _ _ _ op.left_le_atom h⟩ hr
  · exact fun ts e _ ih => ih.negation
  · intro op' ls' rs' l' r' hl' _ _ ih
    rw [List.append_assoc]
    exact behind ⟨l', hl'⟩ ih
  · exact fun _ _ _ _ _ ih => ih

/-- Parentheses make every phrase an atom. -/
theorem group (h : Readable .sum ts) : Readable .atom (.opening :: (ts ++ [.closing])) := by
  obtain ⟨e, h⟩ := h
  exact ⟨e, .group ts e h⟩

end Readable

end TileTrace
