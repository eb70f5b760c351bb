import TileTrace.Value

/-!
# Value terms

A term is an expression as it is written in a program, before any folding.
`Term.build` turns it into a value bottom up, left operand first, and stops at
the first step that is refused.
-/

namespace TileTrace.Value

/-- An expression over words, symbols, and the variables of a program. -/
inductive Term where
  | word (word : Int64)
  | symbol (name : String)
  | var (name : String)
  | neg (operand : Term)
  | binary (op : Operator) (left right : Term)
  deriving DecidableEq, Repr, Inhabited

/-- What the variables of a program stand for, innermost first. -/
abbrev Bindings := List (String × Value)

/-- The value of a term. -/
def Term.build (bindings : Bindings) : Term → Except Error Value
  | .word w => .ok (concrete w)
  | .symbol s => Value.symbol s
  | .var x =>
      match bindings.lookup x with
      | some value => .ok value
      | none => .error (.unknownName x)
  | .neg operand => return negated (← operand.build bindings)
  | .binary op left right => do
      let left ← left.build bindings
      let right ← right.build bindings
      combined op left right

end TileTrace.Value
