import TileTrace.Value

/-!
# Coordinates

A coordinate locates something in an iteration space. It is an unbound slot, a
bound value, or a composite of coordinates. `tryBind` fills the first unbound
slot in depth-first order from the left, if there is one.
-/

namespace TileTrace

/-- A coordinate. -/
inductive Coordinate where
  | unbound
  | bound (value : Value)
  | composite (elements : List Coordinate)
  deriving Repr, Inhabited

namespace Coordinate

/-! ## Reading coordinates -/

mutual
/-- The number of unbound slots. -/
def unboundCount : Coordinate → Nat
  | unbound => 1
  | bound _ => 0
  | composite elements => unboundCounts elements

/-- The number of unbound slots of all coordinates of a list. -/
def unboundCounts : List Coordinate → Nat
  | [] => 0
  | element :: elements => unboundCount element + unboundCounts elements
end

/-- Whether no slot is unbound. -/
def fullyBound (c : Coordinate) : Bool :=
  c.unboundCount = 0

/-- The number of elements of a composite, zero for a slot and a value. -/
def rank : Coordinate → Nat
  | composite elements => elements.length
  | _ => 0

mutual
/-- The written form of a coordinate. A slot is an underscore, and a composite lists its
elements in parentheses. -/
def text : Coordinate → String
  | unbound => "_"
  | bound value => value.text
  | composite elements => "(" ++ String.intercalate ", " (texts elements) ++ ")"

/-- The written forms of the coordinates of a list. -/
def texts : List Coordinate → List String
  | [] => []
  | element :: elements => text element :: texts elements
end

mutual
/-- The expression tree of a coordinate: the empty expression for a slot, and a tuple for a
composite. -/
def expr : Coordinate → Expr
  | unbound => .empty
  | bound value => value.expr
  | composite elements => .tuple (exprs elements)

/-- The expression trees of the coordinates of a list. -/
def exprs : List Coordinate → List Expr
  | [] => []
  | element :: elements => expr element :: exprs elements
end

mutual
/-- The text of the expression tree of a coordinate. -/
def exprText : Coordinate → String
  | unbound => "None"
  | bound value => value.text
  | composite elements => Expr.tupleText (exprTexts elements)

/-- The texts of the expression trees of the coordinates of a list. -/
def exprTexts : List Coordinate → List String
  | [] => []
  | element :: elements => exprText element :: exprTexts elements
end

mutual
/-- Writing the expression tree of a coordinate succeeds and gives its expression text. -/
theorem expr_text : ∀ c : Coordinate, c.expr.text = .ok c.exprText
  | unbound => rfl
  | bound value => value.expr_text
  | composite elements => by
      simp [expr, Expr.tuple, Expr.text, exprs_texts elements, exprText, bind, Except.bind,
        pure, Except.pure]

/-- Writing the expression trees of a list of coordinates succeeds. -/
theorem exprs_texts : ∀ cs : List Coordinate, Expr.texts (exprs cs) = .ok (exprTexts cs)
  | [] => rfl
  | c :: cs => by
      simp [exprs, Expr.texts, expr_text c, exprs_texts cs, exprTexts, bind, Except.bind, pure,
        Except.pure]
end

mutual
/-- Whether two coordinates have the same shape and the same values. -/
def same : Coordinate → Coordinate → Bool
  | unbound, unbound => true
  | bound value, bound value' => Value.same value value'
  | composite elements, composite elements' => sameAll elements elements'
  | _, _ => false

/-- Whether two lists of coordinates have the same length and agree elementwise. -/
def sameAll : List Coordinate → List Coordinate → Bool
  | [], [] => true
  | left :: lefts, right :: rights => same left right && sameAll lefts rights
  | _, _ => false
end

mutual
/-- Coordinates that agree everywhere are equal. -/
theorem same_iff_eq : ∀ left right : Coordinate, same left right = true ↔ left = right
  | unbound, right => by cases right <;> simp [same]
  | bound value, right => by cases right <;> simp [same, Value.same_iff_eq]
  | composite elements, right => by
      cases right with
      | composite elements' => simp [same, sameAll_iff_eq elements elements']
      | _ => simp [same]

/-- Lists of coordinates that agree everywhere are equal. -/
theorem sameAll_iff_eq :
    ∀ lefts rights : List Coordinate, sameAll lefts rights = true ↔ lefts = rights
  | [], rights => by cases rights <;> simp [sameAll]
  | left :: lefts, rights => by
      cases rights with
      | nil => simp [sameAll]
      | cons right rights => simp [sameAll, same_iff_eq left right, sameAll_iff_eq lefts rights]
end

instance : DecidableEq Coordinate := fun left right =>
  decidable_of_iff (same left right = true) (same_iff_eq left right)

/-! ## Looking into coordinates -/

/-- The value of a bound coordinate. -/
def value : Coordinate → Except Error Value
  | bound value => .ok value
  | c => .error (.notBound c.text)

/-- The elements of a composite. -/
def elements : Coordinate → Except Error (List Coordinate)
  | composite elements => .ok elements
  | c => .error (.notComposite c.text)

/-- The element of a composite at a position. -/
def element (c : Coordinate) (index : Int) : Except Error Coordinate :=
  match c, index with
  | composite elements, Int.ofNat position =>
      match elements[position]? with
      | some element => .ok element
      | none => .error (.coordinateIndex index c.text c.rank)
  | _, _ => .error (.coordinateIndex index c.text c.rank)

/-! ## Binding slots -/

mutual
/-- The coordinate with its first unbound slot filled, or `none` without such a slot. -/
def tryBind (filling : Coordinate) : Coordinate → Except Error (Option Coordinate)
  | unbound => .ok (some filling)
  | bound _ => .ok none
  | composite elements => return (← tryBindAny filling elements).map composite

/-- The list with the first unbound slot of its coordinates filled. A coordinate that counts
unbound slots has to have one. -/
def tryBindAny (filling : Coordinate) :
    List Coordinate → Except Error (Option (List Coordinate))
  | [] => .ok none
  | element :: elements => do
      if element.fullyBound then
        return (← tryBindAny filling elements).map (element :: ·)
      else
        match ← tryBind filling element with
        | some filled => return some (filled :: elements)
        | none => throw (.noUnboundSlot element.text)
end

/-- The coordinate with its first unbound slot filled, and itself when it has none. -/
def bind (c filling : Coordinate) : Coordinate :=
  match tryBind filling c with
  | .ok (some filled) => filled
  | _ => c

end Coordinate

end TileTrace
