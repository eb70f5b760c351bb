import Mathlib.Tactic.Linarith
import TileTrace.Proofs.ExactWords

/-!
# Repeated squaring loses no power

Repeated squaring gives up at the first product or square that is no word,
before the power itself is known. `not_fits_of_powerLoop` says that the power is
no word either, and `power?_eq_some` that the checked power is the exact one. The
argument is that what is still to be multiplied is a positive square, so an
integer outside the words stays outside. The only way back would be a square of
`2 ^ 63` with a negative factor, and `2 ^ 63` is no square.
-/

namespace TileTrace.Word

/-- The integer is the value of a word. -/
def Fits (n : Int) : Prop :=
  -2 ^ 63 ≤ n ∧ n ≤ 2 ^ 63 - 1

instance (n : Int) : Decidable (Fits n) :=
  inferInstanceAs (Decidable (_ ∧ _))

theorem fits_toInt (a : Int64) : Fits a.toInt := by
  have := a.le_toInt
  have := a.toInt_lt
  exact ⟨by omega, by omega⟩

theorem fits_iff {n : Int} : Fits n ↔ ∃ r : Int64, r.toInt = n := by
  constructor
  · intro h
    have hlt : n < 2 ^ 63 := by
      have := h.2
      omega
    exact ⟨Int64.ofInt n, Int64.toInt_ofInt_of_le h.1 hlt⟩
  · rintro ⟨r, rfl⟩
    exact fits_toInt r

/-- A computation whose results are the words of one integer fails exactly when that is no
word. -/
theorem eq_none_iff_not_fits {computed : Option Int64} {n : Int}
    (h : ∀ r : Int64, computed = some r ↔ r.toInt = n) : computed = none ↔ ¬Fits n := by
  rw [fits_iff, Option.eq_none_iff_forall_ne_some, not_exists]
  exact forall_congr' fun r => not_congr (h r)

/-! ## Integers that stay outside the words -/

/-- A positive factor takes no integer back into the range of the words. -/
theorem not_fits_mul {n k : Int} (h : ¬Fits n) (hk : 0 < k) : ¬Fits (n * k) := by
  unfold Fits at *
  obtain hlow | hhigh : n < -2 ^ 63 ∨ 2 ^ 63 ≤ n := by omega
  · have : n * k ≤ n * 1 := Int.mul_le_mul_of_nonpos_left (by omega) (by omega)
    omega
  · have : n * 1 ≤ n * k := Int.mul_le_mul_of_nonneg_left (by omega) (by omega)
    omega

/-- A square that is no word is above all words and their negatives, since `2 ^ 63` is no
square. -/
theorem lt_square_of_not_fits {b : Int} (h : ¬Fits (b * b)) : 2 ^ 63 < b * b := by
  have hnonneg : 0 ≤ b * b := mul_self_nonneg b
  have hne : b * b ≠ 2 ^ 63 := by
    rw [← Int.natAbs_mul_self]
    obtain hsmall | hlarge : b.natAbs ≤ 3037000499 ∨ 3037000500 ≤ b.natAbs := by omega
    · have := Nat.mul_le_mul hsmall hsmall
      omega
    · have := Nat.mul_le_mul hlarge hlarge
      omega
  unfold Fits at h
  omega

/-- Such a square with a factor other than zero is no word either. -/
theorem not_fits_mul_square {n b : Int} (hn : n ≠ 0) (hb : ¬Fits (b * b)) :
    ¬Fits (n * (b * b)) := by
  have hsquare := lt_square_of_not_fits hb
  unfold Fits
  obtain hneg | hpos : n ≤ -1 ∨ 1 ≤ n := by omega
  · have : n * (b * b) ≤ -1 * (b * b) := Int.mul_le_mul_of_nonneg_right hneg (by omega)
    omega
  · have : 1 * (b * b) ≤ n * (b * b) := Int.mul_le_mul_of_nonneg_right hpos (by omega)
    omega

/-! ## Giving up -/

section Loop

variable {result base : Int64} {exponent : Nat}

/-- Giving up on a product means that the base is not zero. -/
theorem base_ne_zero_of_bit (h : ¬Fits (result.toInt * base.toInt ^ (exponent % 2))) :
    base.toInt ≠ 0 := by
  intro hzero
  apply h
  obtain heven | hodd := Nat.mod_two_eq_zero_or_one exponent
  · rw [heven, Int.pow_zero, Int.mul_one]
    exact fits_toInt result
  · rw [hodd, Int.pow_one, hzero, Int.mul_zero]
    decide

/-- Giving up on a square means that the base is not zero. -/
theorem base_ne_zero_of_square (h : ¬Fits (base.toInt * base.toInt)) : base.toInt ≠ 0 := by
  intro hzero
  rw [hzero] at h
  exact h (by decide)

/-- Repeated squaring gives up only when the power is no word. The invariant is that the result is
not zero unless the base is, which makes the result zero for good. -/
theorem not_fits_of_powerLoop (hresult : result.toInt ≠ 0 ∨ base.toInt = 0)
    (h : powerLoop result base exponent = none) :
    ¬Fits (result.toInt * base.toInt ^ exponent) := by
  fun_induction powerLoop result base exponent with
  | case1 result base exponent hbit =>
      have hproduct := (eq_none_iff_not_fits fun _ => bit_eq_some).1 hbit
      have hbase := base_ne_zero_of_bit hproduct
      rw [mul_pow_round]
      exact not_fits_mul hproduct (pow_pos (mul_self_pos.2 hbase) _)
  | case2 => cases h
  | case3 result base exponent result' hbit hlt hsquare =>
      have hoverflow := (eq_none_iff_not_fits fun _ => mul?_eq_some).1 hsquare
      have hbase := base_ne_zero_of_square hoverflow
      have hresult' : result'.toInt ≠ 0 := by
        rw [bit_eq_some.1 hbit]
        exact mul_ne_zero (hresult.resolve_right hbase) (pow_ne_zero _ hbase)
      -- At least one square is still to come.
      have hbits : exponent / 2 = exponent / 2 - 1 + 1 := by omega
      rw [mul_pow_round, ← bit_eq_some.1 hbit, hbits, pow_succ', ← Int.mul_assoc]
      exact not_fits_mul (not_fits_mul_square hresult' hoverflow)
        (pow_pos (mul_self_pos.2 hbase) _)
  | case4 result base exponent result' hbit hlt square hsquare ih =>
      have hinvariant : result'.toInt ≠ 0 ∨ square.toInt = 0 := by
        rw [bit_eq_some.1 hbit, mul?_eq_some.1 hsquare]
        by_cases hbase : base.toInt = 0
        · exact .inr (by rw [hbase, Int.mul_zero])
        · exact .inl (mul_ne_zero (hresult.resolve_right hbase) (pow_ne_zero _ hbase))
      rw [mul_pow_round, ← bit_eq_some.1 hbit, ← mul?_eq_some.1 hsquare]
      exact ih hinvariant h

end Loop

variable {a b r : Int64}

/-- The checked power is the exact power, for every exponent that is not negative. -/
theorem power?_eq_some :
    power? a b = some r ↔ 0 ≤ b.toInt ∧ r.toInt = a.toInt ^ b.toInt.toNat := by
  refine ⟨toInt_of_power?, fun ⟨hnonneg, hr⟩ => ?_⟩
  have hsign : ¬b < 0 := by
    rw [Int64.lt_iff_toInt_lt, Int64.toInt_zero]
    omega
  rw [power?, if_neg hsign]
  have hstart : (1 : Int64).toInt * a.toInt ^ b.toInt.toNat = r.toInt := by
    rw [hr, show (1 : Int64).toInt = 1 from rfl, Int.one_mul]
  cases hloop : powerLoop 1 a b.toInt.toNat with
  | none =>
      have hpower := not_fits_of_powerLoop (.inl (by decide)) hloop
      rw [hstart] at hpower
      exact absurd (fits_toInt r) hpower
  | some result =>
      have hresult := toInt_of_powerLoop hloop
      rw [hstart, Int64.toInt_inj] at hresult
      rw [hresult]

end TileTrace.Word
