import TileTrace.Expr
import TileTrace.Word

/-!
# Symbolic values

A symbolic value is a word, a named symbol, a negation, or a binary expression.
The constructors `Value.symbol`, `Value.negated`, and `Value.combined` build
values and fold words eagerly: an operation on two words is the exact result
when that is a word, and stays an expression otherwise. Dividing by the word
zero is refused. `Value.expr_text` says that writing the expression tree of a
value always succeeds and gives `Value.text`.
-/

namespace TileTrace

/-- A symbolic value. -/
inductive Value where
  | concrete (word : Int64)
  | symbolic (name : String)
  | neg (operand : Value)
  | binary (op : Operator) (left right : Value)
  deriving DecidableEq, Repr, Inhabited

namespace Value

/-- The expression tree of a value. -/
def expr : Value → Expr
  | concrete word => .constant word.toInt
  | symbolic name => .reference name
  | neg operand => .unary "-" operand.expr
  | binary op left right => .binary op.symbol left.expr right.expr

/-- How tightly the written form of a value holds together. -/
def strength : Value → Strength
  | concrete word => if word.toInt < 0 then .negation else .atom
  | symbolic _ => .atom
  | neg _ => .negation
  | binary op _ _ => op.strength

/-- The written form of a value. -/
def text : Value → String
  | concrete word => Decimal.ofInt word.toInt
  | symbolic name => name
  | neg operand => "-" ++ parenthesized operand.strength.wrapsNegated operand.text
  | binary op left right => op.written left.strength left.text right.strength right.text

/-- The tree of a value is as strong as the value. -/
theorem expr_strength (v : Value) : v.expr.strength = .ok v.strength := by
  cases v with
  | binary op left right =>
      simp [expr, Expr.binary, Expr.strength, Expr.operator, Operator.ofSymbol?_symbol, strength,
        bind, Except.bind, pure, Except.pure]
  | _ => rfl

/-- Writing the tree of a value succeeds and gives the text of the value. -/
theorem expr_text (v : Value) : v.expr.text = .ok v.text := by
  induction v with
  | concrete word => rfl
  | symbolic name => rfl
  | neg operand ih =>
      simp [expr, Expr.unary, Expr.text, expr_strength, ih, text, bind, Except.bind, pure,
        Except.pure]
  | binary op left right ihl ihr =>
      simp [expr, Expr.binary, Expr.text, Expr.operator, Operator.ofSymbol?_symbol, expr_strength,
        ihl, ihr, text, bind, Except.bind, pure, Except.pure]

/-- Whether two values have the same shape, operators, words, and names. -/
def same : Value → Value → Bool
  | concrete word, concrete word' => word = word'
  | symbolic name, symbolic name' => name = name'
  | neg operand, neg operand' => same operand operand'
  | binary op left right, binary op' left' right' =>
      op = op' && same left left' && same right right'
  | _, _ => false

/-- Values that agree everywhere are equal. -/
theorem same_iff_eq (v w : Value) : same v w = true ↔ v = w := by
  induction v generalizing w with
  | concrete word => cases w <;> simp [same]
  | symbolic name => cases w <;> simp [same]
  | neg operand ih => cases w <;> simp [same, ih]
  | binary op left right ihl ihr => cases w <;> simp [same, ihl, ihr, and_assoc]

/-! ## Building values -/

/-- A symbol, which needs a name. -/
def symbol (name : String) : Except Error Value :=
  if name.isEmpty then .error .emptySymbolName else .ok (symbolic name)

/-- The negative of a value. The negative of a word is a word when there is one. -/
def negated : Value → Value
  | concrete word =>
      match Word.neg? word with
      | some result => concrete result
      | none => neg (concrete word)
  | operand => neg operand

/-- The exact result of an operator on two words, when it is a word. The divisor of a quotient or
a remainder is not zero. -/
def folded? (op : Operator) (a b : Int64) : Option Int64 :=
  match op with
  | .add => Word.add? a b
  | .sub => Word.sub? a b
  | .mul => Word.mul? a b
  | .floorDiv => Word.floorQuotient? a b
  | .mod => some (Word.floorRemainder a b)
  | .pow => Word.power? a b

/-- An operator on two values, without a look at the divisor. -/
def foldedOr (op : Operator) (left right : Value) : Value :=
  match left, right with
  | concrete a, concrete b =>
      match folded? op a b with
      | some result => concrete result
      | none => binary op left right
  | _, _ => binary op left right

/-- Whether the operator divides and the value is the word zero. -/
def dividesByZero (op : Operator) (right : Value) : Bool :=
  (op = .floorDiv || op = .mod) && right = concrete 0

/-- An operator on two values. -/
def combined (op : Operator) (left right : Value) : Except Error Value :=
  if dividesByZero op right then .error (.divisionByZero left.text op)
  else .ok (foldedOr op left right)

theorem symbol_ok {name : String} {v : Value} :
    symbol name = .ok v ↔ name ≠ "" ∧ v = symbolic name := by
  unfold symbol
  split
  · next hempty => simp [String.isEmpty_iff.1 hempty]
  · next hne => simp [mt String.isEmpty_iff.2 hne, eq_comm]

/-- The negative of a value is a negation, or both are words. -/
theorem negated_cases (v : Value) :
    v.negated = neg v ∨ ∃ word result, v = concrete word ∧ v.negated = concrete result := by
  cases v with
  | concrete word =>
      cases hneg : Word.neg? word with
      | some result => exact .inr ⟨word, result, rfl, by rw [negated, hneg]⟩
      | none => exact .inl (by rw [negated, hneg])
  | symbolic _ | neg _ | binary _ _ _ => exact .inl rfl

theorem dividesByZero_eq_false_iff {op : Operator} {right : Value} :
    dividesByZero op right = false ↔ (op = .floorDiv ∨ op = .mod → right ≠ concrete 0) := by
  cases op <;> simp [dividesByZero]

/-- An operator on two values folds them, or stays. -/
theorem foldedOr_cases (op : Operator) (left right : Value) :
    foldedOr op left right = binary op left right ∨
      ∃ a b result, left = concrete a ∧ right = concrete b ∧
        foldedOr op left right = concrete result := by
  unfold foldedOr
  split
  · next a b =>
      split
      · next result _ => exact .inr ⟨a, b, result, rfl, rfl, rfl⟩
      · exact .inl rfl
  · exact .inl rfl

theorem combined_ok {op : Operator} {left right v : Value} :
    combined op left right = .ok v ↔
      dividesByZero op right = false ∧ v = foldedOr op left right := by
  unfold combined
  split
  · next hzero => simp [hzero]
  · next hzero => simp [hzero, eq_comm]

/-! ## Looking into values -/

/-- The word of a concrete value. -/
def word : Value → Except Error Int64
  | concrete word => .ok word
  | v => .error (.notConcrete v.text)

/-- The name of a symbol. -/
def name : Value → Except Error String
  | symbolic name => .ok name
  | v => .error (.notSymbol v.text)

/-- The operator of a binary expression. -/
def operator : Value → Except Error Operator
  | binary op _ _ => .ok op
  | v => .error (.notBinary v.text)

/-- The operand of a negation. -/
def operand : Value → Except Error Value
  | neg operand => .ok operand
  | v => .error (.notNegation v.text)

/-- The left operand of a binary expression. -/
def left : Value → Except Error Value
  | binary _ left _ => .ok left
  | v => .error (.notBinary v.text)

/-- The right operand of a binary expression. -/
def right : Value → Except Error Value
  | binary _ _ right => .ok right
  | v => .error (.notBinary v.text)

end Value

end TileTrace
