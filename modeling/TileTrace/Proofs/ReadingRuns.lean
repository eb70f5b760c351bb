import TileTrace.Proofs.Phrases

/-!
# Runs of the reader

The machine of the grammar reads phrases over any unfinished operators, also over
such that take a part of the phrase as their operand. `Reads.reaches` says where
it gets. What it has decided on it never takes back: when it reads an operator,
it decides on the left operand, and `readFrom_prefix` says that the left operands
decided on so far are those of the tree that is read in the end, in order. So two
runs that decide differently read different trees. Runs over a phrase in brackets
and over the same phrase without them do so in two cases: behind an operator, by
`Splits.differs_behind`, and in front of an operator, by
`Splits.differs_in_front`.
-/

namespace TileTrace

open Pending

/-! ## Decisions -/

namespace Expr

mutual
/-- A tree from left to right: the left operands of its binary operators, and `none` for everything
else. -/
def lefts : Expr → List (Option Expr)
  | node .unary _ _ [operand] => none :: lefts operand
  | node .binary _ _ [left, right] => lefts left ++ some left :: lefts right
  | node .tuple _ _ elements => allLefts elements ++ [none]
  | _ => [none]

/-- Trees from left to right. -/
def allLefts : List Expr → List (Option Expr)
  | [] => []
  | e :: es => lefts e ++ allLefts es
end

theorem allLefts_append (es es' : List Expr) :
    allLefts (es ++ es') = allLefts es ++ allLefts es' := by
  induction es with
  | nil => rfl
  | cons e es ih => rw [List.cons_append, allLefts, ih, allLefts, List.append_assoc]

theorem allLefts_singleton (e : Expr) : allLefts [e] = lefts e :=
  List.append_nil _

theorem lefts_unary (symbol : String) (e : Expr) : (unary symbol e).lefts = none :: e.lefts := rfl

theorem lefts_binary (symbol : String) (l r : Expr) :
    (binary symbol l r).lefts = l.lefts ++ some l :: r.lefts := rfl

theorem lefts_tuple (es : List Expr) : (tuple es).lefts = allLefts es ++ [none] := rfl

end Expr

namespace Pending

variable {limit : Strength} {stack : List Pending} {e : Expr}

/-- What is decided on in an unfinished operator or bracket. -/
def lefts : Pending → List (Option Expr)
  | bracket elements => Expr.allLefts elements
  | negation => [none]
  | operator _ left => left.lefts ++ [some left]

/-- What is decided on in all of them, from the first one on. -/
def stackLefts : List Pending → List (Option Expr)
  | [] => []
  | top :: stack => stackLefts stack ++ top.lefts

/-- Finishing an operator keeps all decisions. A bracket is not finished like this. -/
theorem lefts_finish {top : Pending} (h : 0 < top.strength) (e : Expr) :
    (top.finish e).lefts = top.lefts ++ e.lefts := by
  cases top with
  | bracket elements => exact absurd h (Nat.lt_irrefl 0)
  | negation => rfl
  | operator op left => rw [finish, Expr.lefts_binary, lefts, List.append_assoc]; rfl

/-- The unfinished operators up to the first one that holds its operand less tightly than asked
for. -/
def kept (limit : Strength) (stack : List Pending) : List Pending :=
  stack.dropWhile fun top => limit ≤ top.strength

theorem kept_cons_of_le {top : Pending} (h : limit ≤ top.strength) :
    kept limit (top :: stack) = kept limit stack :=
  List.dropWhile_cons_of_pos (decide_eq_true h)

theorem kept_cons_of_lt {top : Pending} (h : top.strength < limit) :
    kept limit (top :: stack) = top :: stack :=
  List.dropWhile_cons_of_neg (by simpa using h)

/-- Whoever keeps less keeps the same if more was kept before. -/
theorem kept_kept {limit' : Strength} (h : limit ≤ limit') (stack : List Pending) :
    kept limit (kept limit' stack) = kept limit stack := by
  induction stack with
  | nil => rfl
  | cons top stack ih =>
      by_cases htop : limit' ≤ top.strength
      · rw [kept_cons_of_le htop, ih, kept_cons_of_le (Nat.le_trans h htop)]
      · rw [kept_cons_of_lt (Nat.lt_of_not_le htop)]

/-- Which operators are finished does not depend on the operand. -/
theorem reduce_fst (limit : Strength) (stack : List Pending) (e : Expr) :
    (reduce limit stack e).1 = kept limit stack := by
  induction stack generalizing e with
  | nil => rfl
  | cons top stack ih =>
      by_cases h : limit ≤ top.strength
      · rw [reduce_cons_of_le h, ih, kept_cons_of_le h]
      · rw [reduce_cons_of_lt (Nat.lt_of_not_le h), kept_cons_of_lt (Nat.lt_of_not_le h)]

/-- Finishing operators keeps all decisions. -/
theorem lefts_reduce (hlimit : .sum ≤ limit) (stack : List Pending) (e : Expr) :
    stackLefts (reduce limit stack e).1 ++ (reduce limit stack e).2.lefts =
      stackLefts stack ++ e.lefts := by
  induction stack generalizing e with
  | nil => rfl
  | cons top stack ih =>
      by_cases h : limit ≤ top.strength
      · have hpos : 0 < top.strength := Nat.lt_of_lt_of_le Nat.zero_lt_one (Nat.le_trans hlimit h)
        rw [reduce_cons_of_le h, ih, lefts_finish hpos, stackLefts, List.append_assoc]
      · rw [reduce_cons_of_lt (Nat.lt_of_not_le h)]

theorem length_stackLefts_kept (limit : Strength) (stack : List Pending) :
    (stackLefts (kept limit stack)).length ≤ (stackLefts stack).length := by
  induction stack with
  | nil => exact Nat.le_refl _
  | cons top stack ih =>
      by_cases h : limit ≤ top.strength
      · rw [kept_cons_of_le h, stackLefts, List.length_append]
        omega
      · exact Nat.le_of_eq (congrArg (fun stack => (stackLefts stack).length)
          (kept_cons_of_lt (Nat.lt_of_not_le h)))

end Pending

/-- What is decided on in front of tokens, and in the operand that was read last. -/
def decided (stack : List Pending) (operand : Option Expr) : List (Option Expr) :=
  stackLefts stack ++ (operand.map Expr.lefts).getD []

theorem decided_none (stack : List Pending) : decided stack none = stackLefts stack :=
  List.append_nil _

theorem decided_some (stack : List Pending) (e : Expr) :
    decided stack (some e) = stackLefts stack ++ e.lefts := rfl

theorem decided_of_reduce {limit : Strength} {stack stack' : List Pending} {operand e : Expr}
    (hlimit : .sum ≤ limit) (h : reduce limit stack operand = (stack', e)) :
    decided stack (some operand) = stackLefts stack' ++ e.lefts := by
  have hlefts := lefts_reduce hlimit stack operand
  rw [h] at hlefts
  exact hlefts.symm

theorem Operator.sum_le_limit (op : Operator) : .sum ≤ op.limit := by
  cases op <;> decide

/-- Decisions are never taken back. -/
theorem readFrom_prefix {stack : List Pending} {operand : Option Expr} {ts : List Token} {e : Expr}
    (h : readFrom stack operand ts = some e) : decided stack operand <+: e.lefts := by
  fun_induction readFrom stack operand ts with
  | case1 stack operand e' hreduce =>
      obtain rfl := Option.some.inj h
      exact ⟨[], by rw [decided_of_reduce (Nat.le_refl _) hreduce, List.append_nil]; rfl⟩
  | case3 stack operand op ts stack' left hreduce ih =>
      refine .trans ⟨[some left], ?_⟩ (ih h)
      rw [decided_of_reduce op.sum_le_limit hreduce, decided_none, stackLefts, lefts,
        List.append_assoc]
  | case4 stack operand ts elements stack' e' hreduce ih =>
      refine .trans ⟨[], ?_⟩ (ih h)
      rw [decided_of_reduce (Nat.le_refl _) hreduce, decided_none, stackLefts, lefts, stackLefts,
        lefts, Expr.allLefts_append, Expr.allLefts_singleton, List.append_nil, List.append_assoc]
  | case6 stack operand ts stack' e' hreduce ih =>
      refine .trans ⟨[], ?_⟩ (ih h)
      rw [decided_of_reduce (Nat.le_refl _) hreduce, decided_some, stackLefts, lefts,
        Expr.allLefts, List.append_nil, List.append_nil]
  | case7 stack operand ts elements stack' e' hne hreduce ih =>
      refine .trans ⟨[none], ?_⟩ (ih h)
      rw [decided_of_reduce (Nat.le_refl _) hreduce, decided_some, stackLefts, lefts,
        Expr.lefts_tuple, Expr.allLefts_append, Expr.allLefts_singleton, List.append_assoc,
        List.append_assoc, List.append_assoc]
  | case9 stack n ts ih => exact .trans ⟨[none], by rw [decided_none]; rfl⟩ (ih h)
  | case10 stack name ts ih =>
      refine .trans ⟨[none], ?_⟩ (ih h)
      rw [decided_none]
      split <;> rfl
  | case11 stack ts ih =>
      exact .trans ⟨[], by simp [decided, stackLefts, lefts, Expr.allLefts]⟩ (ih h)
  | case12 stack ts ih => exact .trans ⟨[none], by rw [decided_none, decided_none]; rfl⟩ (ih h)
  | case13 elements stack ts ih =>
      refine .trans ⟨[none], ?_⟩ (ih h)
      rw [decided_none, decided_some, stackLefts, lefts, Expr.lefts_tuple, List.append_assoc]
  | case2 | case5 | case8 | case14 => cases h

/-- An operator that was read is in the tree, with the left operand that was decided on. -/
theorem getElem?_of_readFrom {op : Operator} {left e : Expr} {stack : List Pending}
    {ts : List Token} (h : readFrom (.operator op left :: stack) none ts = some e) :
    e.lefts[(stackLefts stack).length + left.lefts.length]? = some (some left) := by
  obtain ⟨rest, hrest⟩ := readFrom_prefix h
  rw [← hrest, decided_none, stackLefts, lefts, ← List.append_assoc, List.append_assoc,
    ← List.length_append, List.getElem?_append_right (Nat.le_refl _), Nat.sub_self]
  rfl

/-! ## Where phrases lead -/

/-- Reading a phrase over a stack leads to another stack and an operand. Everything in the phrase is
decided on then, the operand is a part of the phrase, and what follows a phrase of the given
strength finishes as many operators as it would have without the phrase. -/
structure Reaches (s : Strength) (stack : List Pending) (ts : List Token) (e : Expr)
    (stack' : List Pending) (operand : Expr) : Prop where
  run : ∀ rest, readFrom stack none (ts ++ rest) = readFrom stack' (some operand) rest
  length : (stackLefts stack').length + operand.lefts.length =
    (stackLefts stack).length + e.lefts.length
  part : operand.lefts.length ≤ e.lefts.length
  kept : ∀ limit ≤ s, limit ≤ .negation ∨ .atom ≤ s → kept limit stack' = kept limit stack

namespace Reaches

variable {s s' : Strength} {stack stack' stack'' : List Pending} {ts ls rs : List Token}
  {e l r operand operand' : Expr} {op : Operator}

theorem looser (h : Reaches s' stack ts e stack' operand) (hs : s ≤ s') :
    Reaches s stack ts e stack' operand :=
  { h with
    kept limit hle hlimit :=
      h.kept limit (Nat.le_trans hle hs) (hlimit.imp_right fun h => Nat.le_trans h hs) }

/-- An atom is an operand at once. -/
theorem atom (h : Reads .atom ts e) (stack : List Pending) : Reaches .atom stack ts e stack e where
  run rest := by
    obtain ⟨stack', operand, hrun, hreduce⟩ := h.readsTo stack (.of_product_lt (by decide))
    have hwhole := hreduce .atom (Nat.le_refl _) (.inr (Nat.le_refl _))
    rw [reduce_atom, reduce_atom, Prod.mk.injEq] at hwhole
    rw [hrun, hwhole.1, hwhole.2]
  length := rfl
  part := Nat.le_refl _
  kept _ _ _ := rfl

theorem negation (h : Reaches .negation (.negation :: stack) ts e stack' operand) :
    Reaches .negation stack (.operator .sub :: ts) (.unary "-" e) stack' operand where
  run rest := h.run rest
  length := by
    rw [h.length, stackLefts, lefts, Expr.lefts_unary]
    simp only [List.length_append, List.length_cons, List.length_nil]
    omega
  part := by
    rw [Expr.lefts_unary, List.length_cons]
    exact Nat.le_succ_of_le h.part
  kept limit hle hlimit := by
    rw [h.kept limit hle hlimit, kept_cons_of_le]
    exact hle

/-- An operator behind a phrase gets a left operand. -/
theorem behind (h : Reaches s stack ls l stack' operand) (op : Operator) :
    ∃ left, left = (reduce op.limit stack' operand).2 ∧
      (∀ rest, readFrom stack none (ls ++ .operator op :: rest) =
        readFrom (.operator op left :: Pending.kept op.limit stack') none rest) ∧
      (stackLefts (Pending.kept op.limit stack')).length + left.lefts.length =
        (stackLefts stack).length + l.lefts.length := by
  have hlefts := congrArg List.length (lefts_reduce op.sum_le_limit stack' operand)
  rw [List.length_append, List.length_append, h.length, reduce_fst] at hlefts
  refine ⟨_, rfl, fun rest => ?_, hlefts⟩
  rw [h.run, readFrom, ← reduce_fst op.limit stack' operand]

/-- An operator between two phrases that are strong enough. -/
theorem binary {left : Expr} (hl : Reaches op.left stack ls l stack' operand)
    (hrun : ∀ rest, readFrom stack none (ls ++ .operator op :: rest) =
      readFrom (.operator op left :: Pending.kept op.limit stack') none rest)
    (hlength : (stackLefts (Pending.kept op.limit stack')).length + left.lefts.length =
      (stackLefts stack).length + l.lefts.length)
    (hr : Reaches op.right (.operator op left :: Pending.kept op.limit stack') rs r stack''
      operand') :
    Reaches op.strength stack (ls ++ .operator op :: rs) (.binary op.symbol l r) stack''
      operand' where
  run rest := by
    rw [List.append_assoc, List.cons_append, hrun]
    exact hr.run rest
  length := by
    rw [hr.length, stackLefts, lefts, Expr.lefts_binary]
    simp only [List.length_append, List.length_cons, List.length_nil]
    omega
  part := by
    refine Nat.le_trans hr.part ?_
    rw [Expr.lefts_binary, List.length_append, List.length_cons]
    omega
  kept limit hle hlimit := by
    have hnegation : limit ≤ .negation :=
      hlimit.resolve_right (Nat.not_le_of_lt (Nat.lt_succ_of_le op.strength_le_power))
    have hright : limit ≤ op.right := Operator.le_right hle hnegation
    have hleft : limit ≤ op.left := Nat.le_trans hle op.strength_le_left
    have hop : limit ≤ (Pending.operator op left).strength := hle
    rw [hr.kept limit hright (.inl hnegation), kept_cons_of_le hop, op.limit_eq_left,
      kept_kept hleft, hl.kept limit hleft (.inl hnegation)]

end Reaches

/-- Reading a phrase over any stack leads somewhere. -/
theorem Reads.reaches {s : Strength} {ts : List Token} {e : Expr} (h : Reads s ts e) :
    ∀ stack, ∃ stack' operand, Reaches s stack ts e stack' operand := by
  refine h.phrase_induction
    (P := fun s ts e => ∀ stack, ∃ stack' operand, Reaches s stack ts e stack' operand) ?_ ?_ ?_ ?_
  · exact fun ts e h stack => ⟨stack, e, .atom h stack⟩
  · intro ts e _ ih stack
    obtain ⟨stack', operand, h⟩ := ih (.negation :: stack)
    exact ⟨stack', operand, h.negation⟩
  · intro op ls rs l r _ ihl _ ihr stack
    obtain ⟨stack', operand, hl⟩ := ihl stack
    obtain ⟨left, -, hrun, hlength⟩ := hl.behind op
    obtain ⟨stack'', operand', hr⟩ := ihr (.operator op left :: kept op.limit stack')
    exact ⟨stack'', operand', hl.binary hrun hlength hr⟩
  · intro s s' ts e hs ih stack
    obtain ⟨stack', operand, h⟩ := ih stack
    exact ⟨stack', operand, h.looser hs⟩

/-! ## Parentheses that matter -/

section Matter

variable {s : Strength} {stack : List Pending} {ts ls rs more more' : List Token} {e l x : Expr}
  {op : Operator}

/-- Behind an operator that holds its operand tightly enough, the parentheses around a phrase with a
weaker operator matter: without them, the operator in front takes the left operand of the weaker
one. -/
theorem differs_of_holds {top : Pending} (hl : Reads op.left ls l)
    (hholds : op.limit ≤ top.strength)
    (hwrapped : readFrom (top :: stack) none (.opening :: (ls ++ .operator op :: more)) = some e)
    (hbare : readFrom (top :: stack) none (ls ++ .operator op :: more') = some e) : False := by
  have hpos : 0 < top.strength := Nat.lt_of_lt_of_le op.sum_le_limit hholds
  have htop : 0 < top.lefts.length := by
    cases top with
    | bracket elements => exact absurd hpos (Nat.lt_irrefl 0)
    | negation => exact Nat.zero_lt_one
    | operator op left => simp [lefts]
  -- In parentheses, the left operand is what it is alone.
  have hinside : readFrom (.operator op l :: .bracket [] :: top :: stack) none more = some e := by
    have hfits : Fits op.left (.bracket [] :: top :: stack) :=
      (fits_bracket [] _).looser (Nat.le_trans op.sum_le_limit op.limit_le_left)
    obtain ⟨stack', operand, hrun, hreduce⟩ := hl.readsTo _ hfits
    have hbracket := hreduce op.limit op.limit_le_left op.limit_le_negation_or
    have hopen : (Pending.bracket []).strength < op.limit := op.sum_le_limit
    rw [reduce_cons_of_lt hopen] at hbracket
    rwa [readFrom, hrun, readFrom, hbracket] at hwrapped
  obtain ⟨stack', operand, hreaches⟩ := hl.reaches (top :: stack)
  obtain ⟨left, -, hrun, hlength⟩ := hreaches.behind op
  rw [hrun] at hbare
  -- Without them, the operator in front is finished first, and is in the left operand then.
  have hkept : (stackLefts (kept op.limit stack')).length ≤ (stackLefts stack).length := by
    rw [hreaches.kept op.limit op.limit_le_left op.limit_le_negation_or, kept_cons_of_le hholds]
    exact length_stackLefts_kept op.limit stack
  have hinside := getElem?_of_readFrom hinside
  have hbare := getElem?_of_readFrom hbare
  have hempty : stackLefts (.bracket [] :: top :: stack) = stackLefts (top :: stack) :=
    List.append_nil _
  rw [hlength, ← hempty, hinside, Option.some.injEq, Option.some.injEq] at hbare
  subst hbare
  rw [stackLefts, List.length_append] at hlength
  omega

/-- Behind an operator that holds its operand tightly enough, the parentheses around a sum or a
product matter. -/
theorem Splits.differs_behind {top : Pending} (h : Splits s ts x) (hs : s < .negation)
    (hholds : s ≤ top.strength)
    (hwrapped : readFrom (top :: stack) none (.opening :: (ts ++ more)) = some e)
    (hbare : readFrom (top :: stack) none (ts ++ more') = some e) : False := by
  cases h with
  | atom ts x h => exact absurd hs (by decide)
  | negation ts x h => exact absurd hs (by decide)
  | operator op ls rs l r hl hr =>
      have hlimit : op.limit ≤ top.strength :=
        Nat.le_trans (Nat.le_trans op.limit_le_left (op.left_le_strength hs)) hholds
      rw [List.append_assoc, List.cons_append] at hwrapped hbare
      exact differs_of_holds hl hlimit hwrapped hbare

/-- In front of an operator, a phrase that is too weak for it leaves only a part of itself as the
left operand. -/
theorem Splits.exists_part (h : Splits s ts x) (hwraps : op.wrapsLeft s = true)
    (stack : List Pending) :
    ∃ left stack', left.lefts.length < x.lefts.length ∧
      (∀ rest, readFrom stack none (ts ++ .operator op :: rest) =
        readFrom (.operator op left :: stack') none rest) ∧
      (stackLefts stack').length + left.lefts.length =
        (stackLefts stack).length + x.lefts.length := by
  cases h with
  | atom ts x h => cases op <;> exact absurd hwraps (by decide)
  | negation ts y h =>
      obtain ⟨stack', operand, hy⟩ := h.reaches (.negation :: stack)
      obtain ⟨left, hleft, hrun, hlength⟩ := hy.negation.behind op
      refine ⟨left, _, ?_, hrun, hlength⟩
      have hpow : op = .pow := by cases op <;> first | rfl | exact absurd hwraps (by decide)
      rw [hleft, hpow, Operator.limit, reduce_atom, Expr.lefts_unary, List.length_cons]
      exact Nat.lt_succ_of_le hy.part
  | operator op' ls rs l r hl hr =>
      obtain ⟨stack₁, operand₁, hreachesl⟩ := hl.reaches stack
      obtain ⟨left', -, hrunl, hlengthl⟩ := hreachesl.behind op'
      obtain ⟨stack₂, operand₂, hreachesr⟩ :=
        hr.reaches (.operator op' left' :: kept op'.limit stack₁)
      obtain ⟨left, hleft, hrun, hlength⟩ := (hreachesl.binary hrunl hlengthl hreachesr).behind op
      refine ⟨left, _, ?_, hrun, hlength⟩
      have hright : r.lefts.length < (Expr.binary op'.symbol l r).lefts.length := by
        rw [Expr.lefts_binary, List.length_append, List.length_cons]
        omega
      refine Nat.lt_of_le_of_lt ?_ hright
      by_cases hpow : op = .pow
      · rw [hleft, hpow, Operator.limit, reduce_atom]
        exact hreachesr.part
      · -- The operator in the phrase stays unfinished, with its right operand behind it.
        obtain ⟨hweak, hright⟩ := Operator.limit_of_wrapsLeft hwraps hpow
        have hnegation : op.limit ≤ .negation := Nat.le_trans hright op'.right_le_negation
        have hstays : (Pending.operator op' left').strength < op.limit := hweak
        rw [hreachesr.kept op.limit hright (.inl hnegation), kept_cons_of_lt hstays, stackLefts,
          lefts, Expr.lefts_binary] at hlength
        simp only [List.length_append, List.length_cons, List.length_nil] at hlength
        omega

/-- In front of an operator, the parentheses around a phrase that is too weak for it matter. -/
theorem Splits.differs_in_front (h : Splits s ts x) (hwraps : op.wrapsLeft s = true)
    (hwrapped : readFrom stack none (.opening :: (ts ++ .closing :: .operator op :: more)) = some e)
    (hbare : readFrom stack none (ts ++ .operator op :: more') = some e) : False := by
  have hgroup := Reads.group ts x (.looser _ _ _ _ h.sum_le h.reads)
  obtain ⟨left, -, hrun, hlength⟩ := (Reaches.atom hgroup stack).behind op
  obtain ⟨left', stack', hpart, hrun', hlength'⟩ := h.exists_part hwraps stack
  rw [List.append_cons, ← List.cons_append, hrun] at hwrapped
  rw [hrun'] at hbare
  have hwhole := getElem?_of_readFrom hwrapped
  have hbare := getElem?_of_readFrom hbare
  rw [hlength', ← hlength, hwhole, Option.some.injEq, Option.some.injEq] at hbare
  have hkept := length_stackLefts_kept op.limit stack
  subst hbare
  omega

end Matter

end TileTrace
