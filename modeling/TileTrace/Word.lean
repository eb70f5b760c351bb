/-!
# Checked arithmetic on 64-bit words

Index arithmetic is folded only when the exact integer result is again a signed
64-bit word. Every operation of this module therefore returns an optional word:
`some r` for an exact result `r`, and `none` when the exact result has no word.
Quotients round toward negative infinity, and a remainder takes the sign of its
divisor. Powers are computed by repeated squaring.
-/

namespace TileTrace.Word

/-- The word with the given integer value, if there is one. -/
def ofInt? (n : Int) : Option Int64 :=
  if Int64.minValue.toInt ≤ n ∧ n ≤ Int64.maxValue.toInt then some (Int64.ofInt n) else none

/-- The exact sum. -/
def add? (a b : Int64) : Option Int64 :=
  ofInt? (a.toInt + b.toInt)

/-- The exact difference. -/
def sub? (a b : Int64) : Option Int64 :=
  ofInt? (a.toInt - b.toInt)

/-- The exact product. -/
def mul? (a b : Int64) : Option Int64 :=
  ofInt? (a.toInt * b.toInt)

/-- The exact negative, which exists for every word but the least. -/
def neg? (a : Int64) : Option Int64 :=
  if a = Int64.minValue then none else some (-a)

/-- The quotient rounded toward negative infinity. Division by minus one is negation, so the
truncating word division is only used where it cannot overflow. -/
def floorQuotient? (a b : Int64) : Option Int64 :=
  if b = -1 then neg? a
  else if a % b ≠ 0 ∧ decide (a < 0) ≠ decide (b < 0) then some (a / b - 1)
  else some (a / b)

/-- The remainder that belongs to the rounded-down quotient. It is zero or has the sign of the
divisor. -/
def floorRemainder (a b : Int64) : Int64 :=
  if b = -1 then 0
  else if a % b ≠ 0 ∧ decide (a % b < 0) ≠ decide (b < 0) then a % b + b
  else a % b

/-- Repeated squaring: `result * base ^ exponent`. It gives up as soon as a product or a square
that is still needed has no word. -/
def powerLoop (result base : Int64) (exponent : Nat) : Option Int64 :=
  match if exponent % 2 = 1 then mul? result base else some result with
  | none => none
  | some result =>
      if exponent < 2 then some result
      else match mul? base base with
        | none => none
        | some square => powerLoop result square (exponent / 2)
termination_by exponent
decreasing_by omega

/-- The exact power. A negative exponent has no integer power. -/
def power? (base exponent : Int64) : Option Int64 :=
  if exponent < 0 then none else powerLoop 1 base exponent.toInt.toNat

end TileTrace.Word
