import TileTrace.Value

/-!
# Sources of fresh symbols

A symbol source hands out symbols that share a stem and are numbered from zero.
-/

namespace TileTrace

/-- A stem and the number of symbols handed out so far. -/
structure SymbolSource where
  stem : String
  count : Nat := 0
  deriving DecidableEq, Repr, Inhabited

namespace SymbolSource

/-- The name of the symbol with the given number. -/
def nameAt (stem : String) (number : Nat) : String :=
  stem ++ Decimal.ofNat number

/-- The next symbol and the source after it. -/
def next (source : SymbolSource) : Value × SymbolSource :=
  (.symbolic (nameAt source.stem source.count), ⟨source.stem, source.count + 1⟩)

/-- The next symbols, in order, and the source after them. -/
def take (source : SymbolSource) : Nat → List Value × SymbolSource
  | 0 => ([], source)
  | n + 1 =>
      let (symbol, source) := source.next
      let (symbols, source) := source.take n
      (symbol :: symbols, source)

/-- Symbols of one stem with the same name have the same number. -/
theorem nameAt_injective {stem : String} {m n : Nat} (h : nameAt stem m = nameAt stem n) :
    m = n := by
  apply Decimal.ofNat_injective
  apply String.toList_injective
  have hlists := congrArg String.toList h
  simpa [nameAt] using hlists

/-- A symbol of a grid loop is no symbol of a nested loop. -/
theorem nameAt_tile_ne_coord (m n : Nat) : nameAt "tile" m ≠ nameAt "coord" n := by
  intro h
  have hlists := congrArg String.toList h
  simp [nameAt] at hlists

end SymbolSource

end TileTrace
