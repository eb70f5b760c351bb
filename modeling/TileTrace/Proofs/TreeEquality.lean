import TileTrace.Coordinate

/-!
# Trees tell values and coordinates apart

Values, coordinates, and expression trees are compared by functions of their own.
The trees of values and of coordinates are of one type, so the comparisons agree
only if no two coordinates have the same tree. `Coordinate.ofExpr?` finds the
coordinate that a tree comes from: the kind of its root tells a slot from a
composite and from a value. `Coordinate.same_expr_iff` is the main theorem.
-/

namespace TileTrace

namespace Value

/-- The value that a tree comes from. -/
def ofExpr? : Expr → Option Value
  | .node .constant n _ _ => some (concrete (Int64.ofInt n))
  | .node .name _ name _ => some (symbolic name)
  | .node .unary _ _ [operand] => (ofExpr? operand).map neg
  | .node .binary _ symbol [left, right] => do
      return binary (← Operator.ofSymbol? symbol) (← ofExpr? left) (← ofExpr? right)
  | _ => none

/-- A value is found from its tree. -/
theorem ofExpr?_expr (v : Value) : ofExpr? v.expr = some v := by
  induction v with
  | concrete word => rw [expr, Expr.constant, ofExpr?, Int64.ofInt_toInt]
  | symbolic name => rfl
  | neg operand ih =>
      rw [expr, Expr.unary, ofExpr?, ih]
      rfl
  | binary op left right ihl ihr =>
      rw [expr, Expr.binary, ofExpr?, Operator.ofSymbol?_symbol, ihl, ihr]
      rfl

variable {v w : Value}

theorem expr_inj : v.expr = w.expr ↔ v = w := by
  refine ⟨fun h => ?_, congrArg expr⟩
  have hread := ofExpr?_expr v
  rw [h, ofExpr?_expr] at hread
  exact (Option.some.inj hread).symm

end Value

namespace Coordinate

mutual
/-- The coordinate that a tree comes from. -/
def ofExpr? : Expr → Option Coordinate
  | .node .none _ _ _ => some unbound
  | .node .tuple _ _ elements => (ofExprs? elements).map composite
  | e => (Value.ofExpr? e).map bound

/-- The coordinates that the trees of a list come from. -/
def ofExprs? : List Expr → Option (List Coordinate)
  | [] => some []
  | e :: es => return (← ofExpr? e) :: (← ofExprs? es)
end

/-- The tree of a value is no tree of a slot or a composite. -/
theorem ofExpr?_value (v : Value) : ofExpr? v.expr = (Value.ofExpr? v.expr).map bound := by
  cases v <;> rfl

mutual
/-- A coordinate is found from its tree. -/
theorem ofExpr?_expr : ∀ c : Coordinate, ofExpr? c.expr = some c
  | unbound => rfl
  | bound value => by
      rw [expr, ofExpr?_value, Value.ofExpr?_expr]
      rfl
  | composite elements => by
      rw [expr, Expr.tuple, ofExpr?, ofExprs?_exprs elements]
      rfl

/-- The elements of a composite are found from their trees. -/
theorem ofExprs?_exprs : ∀ cs : List Coordinate, ofExprs? (exprs cs) = some cs
  | [] => rfl
  | c :: cs => by
      rw [exprs, ofExprs?, ofExpr?_expr c, ofExprs?_exprs cs]
      rfl
end

variable {c d : Coordinate}

theorem expr_inj : c.expr = d.expr ↔ c = d := by
  refine ⟨fun h => ?_, congrArg expr⟩
  have hread := ofExpr?_expr c
  rw [h, ofExpr?_expr] at hread
  exact (Option.some.inj hread).symm

/-- Comparing coordinates gives the same answer as comparing their trees field by field, and so
does comparing values, whatever the names of symbols are. -/
theorem same_expr_iff :
    (∀ c d : Coordinate, same c d = true ↔ Expr.same c.expr d.expr = true) ∧
      ∀ v w : Value, Value.same v w = true ↔ Expr.same v.expr w.expr = true := by
  constructor
  · intro c d
    rw [same_iff_eq, Expr.same_iff_eq, expr_inj]
  · intro v w
    rw [Value.same_iff_eq, Expr.same_iff_eq, Value.expr_inj]

/-- The trees of a slot and of a symbol may be written alike, but they are not the same. -/
example : unbound.exprText = (bound (.symbolic "None")).exprText ∧
    Expr.same unbound.expr (bound (.symbolic "None")).expr = false := by
  decide

end Coordinate

end TileTrace
