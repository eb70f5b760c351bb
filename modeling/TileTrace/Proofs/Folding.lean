import TileTrace.Proofs.Evaluation
import TileTrace.Proofs.MachineWords

/-!
# Folding is exact or absent

An operation on two words is the word of its exact result, when there is one, and
otherwise it stays the operation on the two words. `folding_exact`, the main
theorem, says this for all operators and all words, and for negatives, and that a
machine with undefined overflows computes the same: it never gets to such an
operation, and the loop for powers ends.
-/

namespace TileTrace.Value

variable {op : Operator} {a b r : Int64}

/-! ## Operations on two words -/

/-- An operation on two words is refused only for the divisor zero. -/
theorem combined_concrete (hzero : dividesByZero op (concrete b) = false) :
    combined op (concrete a) (concrete b) = .ok (foldedOr op (concrete a) (concrete b)) :=
  if_neg (by simp [hzero])

/-- An operation on two words is a word exactly when it folds to it. -/
theorem foldedOr_eq_concrete :
    foldedOr op (concrete a) (concrete b) = concrete r ↔ folded? op a b = some r := by
  rw [foldedOr]
  cases folded? op a b <;> simp

/-- An operation on two words stays as it is exactly when it does not fold. -/
theorem foldedOr_eq_binary :
    foldedOr op (concrete a) (concrete b) = binary op (concrete a) (concrete b) ↔
      folded? op a b = none := by
  rw [foldedOr]
  cases folded? op a b <;> simp

/-- An operation does not fold exactly when no word is its result. -/
theorem folded?_eq_none (hzero : dividesByZero op (concrete b) = false) :
    folded? op a b = none ↔ ¬∃ n, op.result? a.toInt b.toInt = some n ∧ Word.Fits n := by
  rw [Option.eq_none_iff_forall_ne_some]
  constructor
  · rintro hnone ⟨n, hresult, hfits⟩
    obtain ⟨r, rfl⟩ := Word.fits_iff.1 hfits
    exact hnone r ((folded?_eq_some hzero).2 hresult)
  · intro hnone r hr
    exact hnone ⟨r.toInt, (folded?_eq_some hzero).1 hr, Word.fits_toInt r⟩

/-! ## Negatives -/

/-- The negative of a word is a word exactly when the exact one is. -/
theorem negated_eq_concrete : negated (concrete a) = concrete r ↔ r.toInt = -a.toInt := by
  rw [negated, ← Word.neg?_eq_some]
  cases Word.neg? a <;> simp

/-- The negative of a word stays as it is exactly when the exact one is no word. -/
theorem negated_eq_neg : negated (concrete a) = neg (concrete a) ↔ ¬Word.Fits (-a.toInt) := by
  rw [negated, ← Word.eq_none_iff_not_fits fun _ => Word.neg?_eq_some]
  cases Word.neg? a <;> simp

/-! ## The main theorem -/

/-- An operator on two words gives exactly the word of its result, and the unchanged operation
when there is no such word. So does the negative. On a machine where overflows and divisions of
the least word by minus one are undefined, the same folding never comes to one of them, and the
loop for powers ends within 63 rounds for every exponent. -/
theorem folding_exact (op : Operator) (a b : Int64)
    (hdivisor : op = .floorDiv ∨ op = .mod → b ≠ 0) :
    (∀ r, combined op (concrete a) (concrete b) = .ok (concrete r) ↔
      op.result? a.toInt b.toInt = some r.toInt) ∧
    (combined op (concrete a) (concrete b) = .ok (binary op (concrete a) (concrete b)) ↔
      ¬∃ n, op.result? a.toInt b.toInt = some n ∧ Word.Fits n) ∧
    (∀ r, negated (concrete a) = concrete r ↔ r.toInt = -a.toInt) ∧
    (negated (concrete a) = neg (concrete a) ↔ ¬Word.Fits (-a.toInt)) ∧
    Word.Machine.folded op a b = some (folded? op a b) ∧
    Word.Machine.negative a = some (Word.neg? a) := by
  have hzero : dividesByZero op (concrete b) = false := dividesByZero_concrete.2 hdivisor
  rw [combined_concrete hzero]
  simp only [Except.ok.injEq]
  refine ⟨fun r => ?_, ?_, fun r => negated_eq_concrete, negated_eq_neg,
    Word.Machine.folded_eq hdivisor, Word.Machine.negative_eq a⟩
  · rw [foldedOr_eq_concrete, folded?_eq_some hzero]
  · rw [foldedOr_eq_binary, folded?_eq_none hzero]

/-- The least word is a power, which the loop reaches with its last product. It has no quotient by
minus one. -/
theorem folding_exact_least :
    combined .pow (concrete (-2)) (concrete 63) = .ok (concrete Int64.minValue) ∧
    Word.Machine.folded .pow (-2) 63 = some (folded? .pow (-2) 63) ∧
    (-1 : Int64) ≠ 0 ∧
    combined .floorDiv (concrete Int64.minValue) (concrete (-1)) =
      .ok (binary .floorDiv (concrete Int64.minValue) (concrete (-1))) := by
  have hpower := folding_exact .pow (-2) 63 (by decide)
  have hquotient := folding_exact .floorDiv Int64.minValue (-1) (by decide)
  refine ⟨(hpower.1 _).2 (by decide), hpower.2.2.2.2.1, by decide, hquotient.2.1.2 ?_⟩
  rintro ⟨n, hn, hfits⟩
  cases hn
  exact absurd hfits (by decide)

end TileTrace.Value
