/-!
# Binary operators of index expressions

An operator has a spelling and a binding strength. From the loosest to the
tightest the strengths are sums, products, negation, powers, and atoms. All
operators associate to the left except the power. `ofSymbol?_symbol` and
`symbol_of_ofSymbol?` say that the spelling determines the operator.
-/

namespace TileTrace

/-- The binary operators: sum, difference, product, quotient rounded down, its remainder, and
power. -/
inductive Operator where
  | add
  | sub
  | mul
  | floorDiv
  | mod
  | pow
  deriving DecidableEq, Repr, Inhabited

/-- How tightly a written expression holds together. -/
abbrev Strength := Nat

namespace Strength

/-- Sums and differences bind loosest. -/
def sum : Strength := 1

/-- Products, quotients, and remainders. -/
def product : Strength := 2

/-- A leading minus sign, also that of a negative number. -/
def negation : Strength := 3

/-- Powers. -/
def power : Strength := 4

/-- Names, natural numbers, and bracketed expressions. -/
def atom : Strength := 5

end Strength

namespace Operator

/-- How the operator is written. -/
def symbol : Operator → String
  | add => "+"
  | sub => "-"
  | mul => "*"
  | floorDiv => "//"
  | mod => "%"
  | pow => "**"

/-- The operator with the given spelling. -/
def ofSymbol? (s : String) : Option Operator :=
  if s = "+" then some add
  else if s = "-" then some sub
  else if s = "*" then some mul
  else if s = "//" then some floorDiv
  else if s = "%" then some mod
  else if s = "**" then some pow
  else none

/-- Every spelling is read back. -/
theorem ofSymbol?_symbol (op : Operator) : ofSymbol? op.symbol = some op := by
  cases op <;> simp [ofSymbol?, symbol]

/-- Only the spelling of an operator is read as that operator. -/
theorem symbol_of_ofSymbol? {s : String} {op : Operator} (h : ofSymbol? s = some op) :
    op.symbol = s := by
  unfold ofSymbol? at h
  split at h
  · cases h; simp_all [symbol]
  split at h
  · cases h; simp_all [symbol]
  split at h
  · cases h; simp_all [symbol]
  split at h
  · cases h; simp_all [symbol]
  split at h
  · cases h; simp_all [symbol]
  split at h
  · cases h; simp_all [symbol]
  · cases h

/-- How tightly an expression with this outermost operator holds together. -/
def strength : Operator → Strength
  | add | sub => .sum
  | mul | floorDiv | mod => .product
  | pow => .power

/-- Whether the left operand needs parentheses. Only the power also wraps a left operand of its
own strength. -/
def wrapsLeft (op : Operator) (operand : Strength) : Bool :=
  match op with
  | pow => operand ≤ op.strength
  | _ => operand < op.strength

/-- Whether the right operand needs parentheses. All operators but the power also wrap a right
operand of their own strength. -/
def wrapsRight (op : Operator) (operand : Strength) : Bool :=
  match op with
  | pow => operand < op.strength
  | _ => operand ≤ op.strength

end Operator

/-- A text, in parentheses when asked for. -/
def parenthesized (wrap : Bool) (text : String) : String :=
  if wrap then "(" ++ text ++ ")" else text

/-- Whether the operand of a leading sign needs parentheses. -/
def Strength.wrapsNegated (operand : Strength) : Bool :=
  operand < negation

/-- A binary expression as written, from the strengths and the texts of its operands. -/
def Operator.written (op : Operator) (leftStrength : Strength) (left : String)
    (rightStrength : Strength) (right : String) : String :=
  parenthesized (op.wrapsLeft leftStrength) left ++ " " ++ op.symbol ++ " " ++
    parenthesized (op.wrapsRight rightStrength) right

end TileTrace
