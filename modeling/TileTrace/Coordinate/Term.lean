import TileTrace.Coordinate
import TileTrace.Value.Term

/-!
# Coordinate terms

A coordinate term is a coordinate as it is written in a program: its values are
value terms, and it may stand for an argument of the step function that is
running. `Term.build` builds elements from left to right and stops at the first
one that is refused.
-/

namespace TileTrace.Coordinate

/-- A coordinate over value terms and argument positions. -/
inductive Term where
  | unbound
  | bound (value : Value.Term)
  | composite (elements : List Term)
  | argument (position : Nat)
  deriving Repr, Inhabited

mutual
/-- The coordinate of a term, given the variables and the coordinates that the arguments stand
for. -/
def Term.build (bindings : Value.Bindings) (arguments : Nat → Option Coordinate) :
    Term → Except Error Coordinate
  | .unbound => .ok .unbound
  | .bound value => return .bound (← value.build bindings)
  | .composite elements => return .composite (← Term.buildAll bindings arguments elements)
  | .argument position =>
      match arguments position with
      | some c => .ok c
      | none => .error (.unknownName "argument")

/-- The coordinates of a list of terms, from left to right. -/
def Term.buildAll (bindings : Value.Bindings) (arguments : Nat → Option Coordinate) :
    List Term → Except Error (List Coordinate)
  | [] => .ok []
  | term :: terms => do
      let c ← Term.build bindings arguments term
      return c :: (← Term.buildAll bindings arguments terms)
end

end TileTrace.Coordinate
