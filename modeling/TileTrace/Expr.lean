import TileTrace.Error

/-!
# Expression trees

An expression tree is a raw record: every node has a kind, a number, a name, and
operands, whether its kind uses them or not. Two trees are the same when all
four fields agree at every node. `Expr.text` writes a tree in expression
notation with as few parentheses as operator strengths require. It fails on a
node with the wrong number of operands and on an operator without a meaning.
-/

namespace TileTrace

/-- The kinds of expression tree nodes. -/
inductive ExprKind where
  | constant
  | none
  | name
  | tuple
  | unary
  | binary
  deriving DecidableEq, Repr, Inhabited

/-- An expression tree. -/
inductive Expr where
  | node (kind : ExprKind) (value : Int) (name : String) (operands : List Expr)
  deriving Repr, Inhabited

namespace Expr

/-- The kind of the root. -/
def kind : Expr → ExprKind
  | node kind _ _ _ => kind

/-- The number at the root. -/
def value : Expr → Int
  | node _ value _ _ => value

/-- The name or operator at the root. -/
def name : Expr → String
  | node _ _ name _ => name

/-- The operands of the root. -/
def operands : Expr → List Expr
  | node _ _ _ operands => operands

/-- A number. -/
def constant (value : Int) : Expr :=
  node .constant value "" []

/-- The empty expression. -/
def empty : Expr :=
  node .none 0 "" []

/-- A reference to a name. -/
def reference (name : String) : Expr :=
  node .name 0 name []

/-- A tuple. -/
def tuple (elements : List Expr) : Expr :=
  node .tuple 0 "" elements

/-- A leading operator and its operand. -/
def unary (symbol : String) (operand : Expr) : Expr :=
  node .unary 0 symbol [operand]

/-- A binary operator between two operands. -/
def binary (symbol : String) (left right : Expr) : Expr :=
  node .binary 0 symbol [left, right]

mutual
/-- Whether two trees agree in every field of every node. -/
def same : Expr → Expr → Bool
  | node kind value name operands, node kind' value' name' operands' =>
      kind = kind' && value = value' && name = name' && sameAll operands operands'

/-- Whether two lists of trees have the same length and agree elementwise. -/
def sameAll : List Expr → List Expr → Bool
  | [], [] => true
  | left :: lefts, right :: rights => same left right && sameAll lefts rights
  | _, _ => false
end

mutual
/-- Field by field agreement is equality. -/
theorem same_iff_eq : ∀ left right : Expr, same left right = true ↔ left = right
  | node kind value name operands, node kind' value' name' operands' => by
      simp [same, sameAll_iff_eq operands operands', and_assoc]

/-- Elementwise agreement is equality. -/
theorem sameAll_iff_eq : ∀ lefts rights : List Expr, sameAll lefts rights = true ↔ lefts = rights
  | [], [] => by simp [sameAll]
  | [], _ :: _ => by simp [sameAll]
  | _ :: _, [] => by simp [sameAll]
  | left :: lefts, right :: rights => by
      simp [sameAll, same_iff_eq left right, sameAll_iff_eq lefts rights]
end

instance : DecidableEq Expr := fun left right =>
  decidable_of_iff (same left right = true) (same_iff_eq left right)

/-- The operator with the given spelling, or the error that there is none. -/
def operator (symbol : String) : Except Error Operator :=
  match Operator.ofSymbol? symbol with
  | some op => .ok op
  | none => .error (.unknownOperator symbol)

/-- How tightly the written form of a tree holds together. A negative number is written with a
leading minus sign and is as loose as a negation. -/
def strength : Expr → Except Error Strength
  | node .constant value _ _ => .ok (if value < 0 then .negation else .atom)
  | node .unary _ _ _ => .ok .negation
  | node .binary _ symbol _ => return (← operator symbol).strength
  | _ => .ok .atom

/-- The written form of a tuple with the given element texts. A single element is followed by a
comma. -/
def tupleText (elements : List String) : String :=
  match elements with
  | [element] => "(" ++ element ++ ",)"
  | elements => "(" ++ String.intercalate ", " elements ++ ")"

mutual
/-- The written form of a tree. -/
def text : Expr → Except Error String
  | node .constant value _ _ => .ok (Decimal.ofInt value)
  | node .none _ _ _ => .ok "None"
  | node .name _ name _ => .ok name
  | node .tuple _ _ elements => return tupleText (← texts elements)
  | node .unary _ symbol [operand] => do
      let wrap := (← strength operand).wrapsNegated
      return symbol ++ parenthesized wrap (← text operand)
  | node .unary _ _ operands => .error (.operandCount 1 operands.length)
  | node .binary _ symbol [left, right] => do
      let op ← operator symbol
      let leftStrength ← strength left
      let rightStrength ← strength right
      return op.written leftStrength (← text left) rightStrength (← text right)
  | node .binary _ _ operands => .error (.operandCount 2 operands.length)

/-- The written forms of the elements of a tuple, in order. -/
def texts : List Expr → Except Error (List String)
  | [] => .ok []
  | element :: elements => return (← text element) :: (← texts elements)
end

end Expr

end TileTrace
