import Mathlib.Tactic.Ring
import TileTrace.Word

/-!
# Exactness of word arithmetic

What do the checked operations on words compute? A result is always the exact
integer result: `toInt` of it is the sum, the difference, the product, the
negative, the quotient rounded down, the remainder that belongs to it, or the
power. All but the power also have a result whenever the exact one is a word.
The words divide by truncation, so `fdiv_fmod_of_opposite` says first what
rounding down changes.
-/

namespace TileTrace.Word

/-! ## Rounding quotients down -/

section Rounding

variable {a b : Int}

/-- A remainder of truncated division is smaller than the divisor. -/
theorem natAbs_tmod_lt (hb : b ≠ 0) : (a.tmod b).natAbs < b.natAbs := by
  rw [Int.natAbs_tmod]
  exact Nat.mod_lt _ (by omega)

/-- A remainder of truncated division that is not zero has the sign of the dividend. -/
theorem tmod_neg_iff (h : a.tmod b ≠ 0) : a.tmod b < 0 ↔ a < 0 := by
  obtain hpos | hneg : 0 ≤ a ∨ a < 0 := by omega
  · have := Int.tmod_nonneg b hpos
    omega
  · have hopposite : 0 ≤ -a.tmod b := by
      rw [← Int.neg_tmod]
      exact Int.tmod_nonneg b (by omega)
    omega

/-- Where the remainder of truncated division and the divisor have opposite signs, rounding down
takes one from the quotient and adds the divisor to the remainder. -/
theorem fdiv_fmod_of_opposite (hb : b ≠ 0) (h : a.tmod b ≠ 0 ∧ ¬(a.tmod b < 0 ↔ b < 0)) :
    a.fdiv b = a.tdiv b - 1 ∧ a.fmod b = a.tmod b + b := by
  have hsum : a.tmod b + b + b * (a.tdiv b - 1) = a := by
    rw [Int.mul_sub, Int.mul_one]
    have := Int.tmod_add_mul_tdiv a b
    omega
  have hlt : (a.tmod b).natAbs < b.natAbs := natAbs_tmod_lt hb
  obtain hneg | hpos := Int.lt_or_gt_of_ne hb
  · exact (Int.fdiv_fmod_unique' hneg).2 ⟨hsum, by omega, by omega⟩
  · exact (Int.fdiv_fmod_unique hpos).2 ⟨hsum, by omega, by omega⟩

/-- Elsewhere truncated division rounds down. -/
theorem fdiv_fmod_of_not_opposite (hb : b ≠ 0) (h : ¬(a.tmod b ≠ 0 ∧ ¬(a.tmod b < 0 ↔ b < 0))) :
    a.fdiv b = a.tdiv b ∧ a.fmod b = a.tmod b := by
  have hsum : a.tmod b + b * a.tdiv b = a := Int.tmod_add_mul_tdiv a b
  have hlt : (a.tmod b).natAbs < b.natAbs := natAbs_tmod_lt hb
  obtain hneg | hpos := Int.lt_or_gt_of_ne hb
  · exact (Int.fdiv_fmod_unique' hneg).2 ⟨hsum, by omega, by omega⟩
  · exact (Int.fdiv_fmod_unique hpos).2 ⟨hsum, by omega, by omega⟩

/-- Dividing by minus one leaves no remainder. -/
theorem fdiv_fmod_neg_one (a : Int) : a.fdiv (-1) = -a ∧ a.fmod (-1) = 0 :=
  (Int.fdiv_fmod_unique' (by omega)).2 (by omega)

end Rounding

variable {a b r : Int64}

/-! ## Sums, products, negatives -/

/-- An integer has a word exactly when it is one. -/
theorem ofInt?_eq_some {n : Int} : ofInt? n = some r ↔ r.toInt = n := by
  unfold ofInt?
  constructor
  · intro h
    split at h
    · next hrange =>
        cases h
        have hlt : n < 2 ^ 63 := by
          rw [Int64.toInt_maxValue] at hrange
          omega
        exact Int64.toInt_ofInt_of_le hrange.1 hlt
    · cases h
  · rintro rfl
    rw [if_pos ⟨r.minValue_le_toInt, r.toInt_le⟩, Int64.ofInt_toInt]

theorem add?_eq_some : add? a b = some r ↔ r.toInt = a.toInt + b.toInt :=
  ofInt?_eq_some

theorem sub?_eq_some : sub? a b = some r ↔ r.toInt = a.toInt - b.toInt :=
  ofInt?_eq_some

theorem mul?_eq_some : mul? a b = some r ↔ r.toInt = a.toInt * b.toInt :=
  ofInt?_eq_some

theorem neg?_eq_some : neg? a = some r ↔ r.toInt = -a.toInt := by
  unfold neg?
  split
  · next hleast =>
      have hlt := r.toInt_lt
      rw [hleast, Int64.toInt_minValue]
      exact ⟨nofun, fun hr => by omega⟩
  · next hleast =>
      have hne : a.toInt ≠ -2 ^ 63 := fun heq =>
        hleast (Int64.toInt_inj.1 (heq.trans Int64.toInt_minValue.symm))
      have hneg : (-a).toInt = -a.toInt := by
        have := a.le_toInt
        have := a.toInt_lt
        rw [Int64.toInt_neg]
        exact Int.bmod_eq_of_le (by omega) (by omega)
      rw [Option.some.injEq, ← Int64.toInt_inj, hneg, eq_comm]

/-! ## Quotients and remainders -/

theorem toInt_ne_zero (hb : b ≠ 0) : b.toInt ≠ 0 :=
  fun heq => hb (Int64.toInt_inj.1 heq)

/-- Words with a remainder of the other sign than the divisor are such integers. -/
theorem opposite_iff : (a % b ≠ 0 ∧ decide (a % b < 0) ≠ decide (b < 0)) ↔
    a.toInt.tmod b.toInt ≠ 0 ∧ ¬(a.toInt.tmod b.toInt < 0 ↔ b.toInt < 0) := by
  rw [ne_eq, ← Int64.toInt_inj, ne_eq, decide_eq_decide, Int64.lt_iff_toInt_lt,
    Int64.lt_iff_toInt_lt, Int64.toInt_mod]
  rfl

/-- The dividend may stand for the remainder where signs are compared. -/
theorem opposite_dividend_iff : (a % b ≠ 0 ∧ decide (a < 0) ≠ decide (b < 0)) ↔
    a.toInt.tmod b.toInt ≠ 0 ∧ ¬(a.toInt.tmod b.toInt < 0 ↔ b.toInt < 0) := by
  rw [← opposite_iff]
  refine and_congr_right fun hne => ?_
  have hsign : a % b < 0 ↔ a < 0 := by
    rw [Int64.lt_iff_toInt_lt, Int64.lt_iff_toInt_lt, Int64.toInt_mod]
    exact tmod_neg_iff (Int64.toInt_mod a b ▸ toInt_ne_zero hne)
  rw [decide_eq_decide.2 hsign]

/-- A quotient that is not exact is far from the least word. -/
theorem toInt_quotient_sub_one (hb : b ≠ 0) (hminus : b ≠ -1)
    (hrest : a.toInt.tmod b.toInt ≠ 0) : (a / b - 1).toInt = a.toInt.tdiv b.toInt - 1 := by
  have hb' := toInt_ne_zero hb
  have hminus' : b.toInt ≠ -1 := fun heq => hminus (Int64.toInt_inj.1 heq)
  have hone : b.toInt ≠ 1 := by
    intro heq
    rw [heq, Int.tmod_one] at hrest
    exact hrest rfl
  have hhalf : (a.toInt.tdiv b.toInt).natAbs ≤ a.toInt.natAbs / 2 := by
    rw [Int.natAbs_tdiv]
    exact Nat.div_le_div_left (by omega) (by omega)
  have := a.le_toInt
  have := a.toInt_lt
  rw [Int64.toInt_sub, Int64.toInt_div_of_ne_right a b hminus, show (1 : Int64).toInt = 1 from rfl]
  exact Int.bmod_eq_of_le (by omega) (by omega)

/-- The checked quotient is the quotient rounded down. -/
theorem floorQuotient?_eq_some (hb : b ≠ 0) :
    floorQuotient? a b = some r ↔ r.toInt = a.toInt.fdiv b.toInt := by
  have hb' := toInt_ne_zero hb
  unfold floorQuotient?
  split
  · next hminus =>
      rw [neg?_eq_some, hminus, show (-1 : Int64).toInt = -1 from rfl,
        (fdiv_fmod_neg_one a.toInt).1]
  · next hminus =>
      split
      · next hsigns =>
          have hopposite := opposite_dividend_iff.1 hsigns
          rw [Option.some.injEq, ← Int64.toInt_inj, (fdiv_fmod_of_opposite hb' hopposite).1,
            toInt_quotient_sub_one hb hminus hopposite.1, eq_comm]
      · next hsigns =>
          rw [opposite_dividend_iff] at hsigns
          rw [Option.some.injEq, ← Int64.toInt_inj, (fdiv_fmod_of_not_opposite hb' hsigns).1,
            Int64.toInt_div_of_ne_right a b hminus, eq_comm]

/-- A remainder of the other sign than the divisor is far enough from the least and the greatest
word. -/
theorem toInt_remainder_add (hb : b ≠ 0)
    (hopposite : a.toInt.tmod b.toInt ≠ 0 ∧ ¬(a.toInt.tmod b.toInt < 0 ↔ b.toInt < 0)) :
    (a % b + b).toInt = a.toInt.tmod b.toInt + b.toInt := by
  have hlt : (a.toInt.tmod b.toInt).natAbs < b.toInt.natAbs := natAbs_tmod_lt (toInt_ne_zero hb)
  have := b.le_toInt
  have := b.toInt_lt
  rw [Int64.toInt_add, Int64.toInt_mod]
  exact Int.bmod_eq_of_le (by omega) (by omega)

/-- The remainder is the one that belongs to the quotient rounded down. -/
theorem toInt_floorRemainder (hb : b ≠ 0) :
    (floorRemainder a b).toInt = a.toInt.fmod b.toInt := by
  have hb' := toInt_ne_zero hb
  unfold floorRemainder
  split
  · next hminus =>
      rw [hminus]
      exact (fdiv_fmod_neg_one a.toInt).2.symm
  · split
    · next hsigns =>
        have hopposite := opposite_iff.1 hsigns
        rw [(fdiv_fmod_of_opposite hb' hopposite).2, toInt_remainder_add hb hopposite]
    · next hsigns =>
        rw [opposite_iff] at hsigns
        rw [(fdiv_fmod_of_not_opposite hb' hsigns).2, Int64.toInt_mod]

/-! ## Powers -/

/-- The last bit of the exponent says whether the base goes into the result. -/
theorem bit_eq_some {result base : Int64} {exponent : Nat} :
    (if exponent % 2 = 1 then mul? result base else some result) = some r ↔
      r.toInt = result.toInt * base.toInt ^ (exponent % 2) := by
  split
  · next hodd => rw [hodd, Int.pow_one, mul?_eq_some]
  · next heven =>
      rw [show exponent % 2 = 0 by omega, Int.pow_zero, Int.mul_one, Option.some.injEq,
        ← Int64.toInt_inj, eq_comm]

/-- One round of repeated squaring: the last bit of the exponent goes into the result, the other
bits belong to the square of the base. -/
theorem mul_pow_round (result base : Int) (exponent : Nat) :
    result * base ^ exponent =
      result * base ^ (exponent % 2) * (base * base) ^ (exponent / 2) := by
  rw [Int.mul_assoc, ← pow_two, ← pow_mul, ← pow_add, Nat.mod_add_div]

/-- Repeated squaring only gives the exact power. -/
theorem toInt_of_powerLoop {result base : Int64} {exponent : Nat}
    (h : powerLoop result base exponent = some r) :
    r.toInt = result.toInt * base.toInt ^ exponent := by
  fun_induction powerLoop result base exponent with
  | case1 => cases h
  | case2 result base exponent result' hbit hlt =>
      cases h
      rw [bit_eq_some.1 hbit, Nat.mod_eq_of_lt hlt]
  | case3 => cases h
  | case4 result base exponent result' hbit hlt square hsquare ih =>
      rw [mul_pow_round, ← bit_eq_some.1 hbit, ← mul?_eq_some.1 hsquare]
      exact ih h

/-- Only a natural power is computed, and it is the exact one. -/
theorem toInt_of_power? (h : power? a b = some r) :
    0 ≤ b.toInt ∧ r.toInt = a.toInt ^ b.toInt.toNat := by
  unfold power? at h
  split at h
  · cases h
  · next hneg =>
      rw [Int64.lt_iff_toInt_lt, Int64.toInt_zero] at hneg
      refine ⟨by omega, ?_⟩
      rw [toInt_of_powerLoop h, show (1 : Int64).toInt = 1 from rfl, Int.one_mul]

end TileTrace.Word
