import TileTrace.Proofs.ExactWords
import TileTrace.Value

/-!
# Word arithmetic that stops at an overflow

The plain operations of a machine on words are undefined where the exact result
is no word, and so is the division by zero and that of the least word by minus
one, also for the remainder. Here folding is computed with plain operations that
have no result in these cases, so a computation that uses one of them has no
result either. The loop for powers works on the bits of the exponent and has no
result when the rounds it is given do not suffice. `folded_eq` says that there
is always a result, in at most 63 rounds, and that it is the result of
`Value.folded?`, whose word operations wrap around.
-/

namespace TileTrace.Word.Machine

/-! ## Plain operations -/

/-- The negative, undefined for the least word. -/
def neg (a : Int64) : Option Int64 :=
  ofInt? (-a.toInt)

/-- The sum, undefined on overflow. -/
def add (a b : Int64) : Option Int64 :=
  ofInt? (a.toInt + b.toInt)

/-- The difference, undefined on overflow. -/
def sub (a b : Int64) : Option Int64 :=
  ofInt? (a.toInt - b.toInt)

/-- The quotient rounded toward zero, undefined for the divisor zero and on overflow. -/
def quotient (a b : Int64) : Option Int64 :=
  if b = 0 then none else ofInt? (a.toInt.tdiv b.toInt)

/-- The remainder of that quotient, undefined where the quotient is. -/
def remainder (a b : Int64) : Option Int64 :=
  if b = 0 ∨ a = Int64.minValue ∧ b = -1 then none else some (a % b)

/-! ## Folding with plain operations

The inner option of a result is the answer: a word, or none when the exact result is no word. The
products of a power report their overflows, so they are never undefined. -/

/-- The checked negative. -/
def negative (a : Int64) : Option (Option Int64) :=
  if a = Int64.minValue then some none else return some (← neg a)

/-- The checked quotient rounded down. -/
def floorQuotient (a b : Int64) : Option (Option Int64) :=
  if b = -1 then negative a
  else do
    let q ← quotient a b
    let r ← remainder a b
    if r ≠ 0 ∧ decide (a < 0) ≠ decide (b < 0) then return some (← sub q 1)
    else return some q

/-- The remainder of the quotient rounded down. -/
def floorRemainder (a b : Int64) : Option Int64 :=
  if b = -1 then some 0
  else do
    let r ← remainder a b
    if r ≠ 0 ∧ decide (r < 0) ≠ decide (b < 0) then add r b else return r

/-- The loop of repeated squaring. The exponent is shifted to the right in every round. -/
def powerLoop : (rounds : Nat) → (result base exponent : Int64) → Option (Option Int64)
  | 0, _, _, _ => none
  | rounds + 1, result, base, exponent =>
      match if exponent &&& 1 ≠ 0 then mul? result base else some result with
      | none => some none
      | some result =>
          if exponent >>> 1 = 0 then some (some result)
          else match mul? base base with
            | none => some none
            | some square => powerLoop rounds result square (exponent >>> 1)

/-- The exact result of an operator on two words, when it is a word. -/
def folded (op : Operator) (a b : Int64) : Option (Option Int64) :=
  match op with
  | .add => some (add? a b)
  | .sub => some (sub? a b)
  | .mul => some (mul? a b)
  | .floorDiv => floorQuotient a b
  | .mod => return some (← floorRemainder a b)
  | .pow => if b < 0 then some none else powerLoop 63 1 a b

variable {a b : Int64}

/-! ## Negatives, quotients, remainders -/

/-- Only the least word has no negative, and it is not asked for it. -/
theorem negative_eq (a : Int64) : negative a = some (neg? a) := by
  unfold negative neg?
  split
  · rfl
  · next hleast =>
      have hneg : neg? a = some (-a) := if_neg hleast
      rw [neg, ofInt?_eq_some.2 (neg?_eq_some.1 hneg)]
      rfl

/-- A divisor other than zero and minus one has quotients. -/
theorem quotient_eq (hb : b ≠ 0) (hminus : b ≠ -1) : quotient a b = some (a / b) := by
  rw [quotient, if_neg hb, ofInt?_eq_some]
  exact Int64.toInt_div_of_ne_right a b hminus

/-- A divisor other than zero and minus one has remainders. -/
theorem remainder_eq (hb : b ≠ 0) (hminus : b ≠ -1) : remainder a b = some (a % b) :=
  if_neg (by simp [hb, hminus])

/-- No operation of the checked quotient is undefined. -/
theorem floorQuotient_eq (hb : b ≠ 0) : floorQuotient a b = some (floorQuotient? a b) := by
  unfold floorQuotient floorQuotient?
  split
  · exact negative_eq a
  · next hminus =>
      simp only [quotient_eq hb hminus, remainder_eq hb hminus, Option.pure_def,
        Option.bind_eq_bind, Option.bind_some]
      split
      · next hsigns =>
          have hrest := (opposite_dividend_iff.1 hsigns).1
          have hsub : sub (a / b) 1 = some (a / b - 1) := by
            rw [sub, ofInt?_eq_some, toInt_quotient_sub_one hb hminus hrest,
              Int64.toInt_div_of_ne_right a b hminus]
            rfl
          rw [hsub]
          rfl
      · rfl

/-- No operation of the remainder is undefined. -/
theorem floorRemainder_eq (hb : b ≠ 0) : floorRemainder a b = some (Word.floorRemainder a b) := by
  unfold floorRemainder Word.floorRemainder
  split
  · rfl
  · next hminus =>
      simp only [remainder_eq hb hminus, Option.pure_def, Option.bind_eq_bind, Option.bind_some]
      split
      · next hsigns =>
          rw [add, ofInt?_eq_some, toInt_remainder_add hb (opposite_iff.1 hsigns), Int64.toInt_mod]
      · rfl

/-! ## Powers -/

section Bits

variable {exponent : Int64} (h : 0 ≤ exponent.toInt)

/-- Shifting to the right by one halves a word. -/
theorem toInt_shift (exponent : Int64) : (exponent >>> 1).toInt = exponent.toInt / 2 := by
  have hbits : (exponent >>> 1).toBitVec = exponent.toBitVec.sshiftRight 1 := by
    rw [Int64.toBitVec_shiftRight]
    rfl
  calc (exponent >>> 1).toInt
    _ = (exponent.toBitVec.sshiftRight 1).toInt := congrArg BitVec.toInt hbits
    _ = exponent.toInt >>> (1 : Nat) := BitVec.toInt_sshiftRight
    _ = exponent.toInt / 2 := Int.shiftRight_eq_div_pow exponent.toInt 1

include h

/-- The last bit of a natural exponent says whether it is odd. -/
theorem and_one_iff : exponent &&& 1 ≠ 0 ↔ exponent.toInt.toNat % 2 = 1 := by
  have hnat : exponent.toInt.toNat = exponent.toBitVec.toNat := by
    have hcases : exponent.toInt = _ := BitVec.toInt_eq_toNat_cond exponent.toBitVec
    have := exponent.toBitVec.isLt
    split at hcases <;> omega
  rw [hnat, ne_eq, ← Int64.toBitVec_inj, Int64.toBitVec_and, ← BitVec.toNat_inj, BitVec.toNat_and,
    show (1 : Int64).toBitVec.toNat = 1 from rfl, show (0 : Int64).toBitVec.toNat = 0 from rfl,
    Nat.and_one_is_mod]
  omega

/-- The bits of a natural exponent are used up when at most one is left. -/
theorem shift_eq_zero_iff : exponent >>> 1 = 0 ↔ exponent.toInt.toNat < 2 := by
  rw [← Int64.toInt_inj, toInt_shift, Int64.toInt_zero]
  omega

/-- The loop ends after at most as many rounds as the exponent has bits. -/
theorem powerLoop_eq {rounds : Nat} {result base : Int64} (hrounds : 0 < rounds)
    (hlt : exponent.toInt.toNat < 2 ^ rounds) :
    powerLoop rounds result base exponent =
      some (Word.powerLoop result base exponent.toInt.toNat) := by
  induction rounds generalizing result base exponent with
  | zero => exact absurd hrounds (Nat.lt_irrefl 0)
  | succ rounds ih =>
      rw [powerLoop, Word.powerLoop, if_congr (and_one_iff h) rfl rfl]
      cases (if exponent.toInt.toNat % 2 = 1 then mul? result base else some result) with
      | none => rfl
      | some result' =>
          by_cases hlast : exponent.toInt.toNat < 2
          · simp only [if_pos hlast, if_pos ((shift_eq_zero_iff h).2 hlast)]
          · simp only [if_neg hlast, if_neg (mt (shift_eq_zero_iff h).1 hlast)]
            cases mul? base base with
            | none => rfl
            | some square =>
                have hshift := toInt_shift exponent
                have hhalf : exponent.toInt.toNat / 2 = (exponent >>> 1).toInt.toNat := by omega
                have hmore : 0 < rounds := by
                  rw [Nat.pos_iff_ne_zero]
                  rintro rfl
                  omega
                rw [Nat.pow_succ] at hlt
                rw [hhalf]
                exact ih (by omega) hmore (by omega)

end Bits

/-- No operation of the loop is undefined, and 63 rounds suffice for every exponent. -/
theorem power_eq (a b : Int64) :
    (if b < 0 then some none else powerLoop 63 1 a b) = some (power? a b) := by
  unfold power?
  split
  · rfl
  · next hsign =>
      rw [Int64.lt_iff_toInt_lt, Int64.toInt_zero] at hsign
      have := b.toInt_lt
      exact powerLoop_eq (by omega) (by omega) (by omega)

/-- Folding never runs into an undefined operation, and its loop ends. -/
theorem folded_eq {op : Operator} (hb : op = .floorDiv ∨ op = .mod → b ≠ 0) :
    folded op a b = some (Value.folded? op a b) := by
  cases op with
  | add | sub | mul => rfl
  | floorDiv => exact floorQuotient_eq (hb (.inl rfl))
  | mod => rw [folded, floorRemainder_eq (hb (.inr rfl))]; rfl
  | pow => exact power_eq a b

end TileTrace.Word.Machine
