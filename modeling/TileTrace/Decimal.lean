/-!
# Decimal numerals

Every number that is shown is written in decimal without leading zeros, with a
minus sign in front of a negative one. `ofNat_injective` and `ofInt_injective`
say that a numeral determines its number.
-/

namespace TileTrace.Decimal

/-- The decimal digits of a natural number. -/
def ofNat (n : Nat) : String :=
  String.ofList (Nat.toDigits 10 n)

/-- The decimal numeral of an integer. -/
def ofInt (n : Int) : String :=
  if n < 0 then "-" ++ ofNat n.natAbs else ofNat n.natAbs

/-- A decimal numeral determines its natural number. -/
theorem ofNat_injective {m n : Nat} (h : ofNat m = ofNat n) : m = n := by
  have hdigits : Nat.toDigits 10 m = Nat.toDigits 10 n := by
    simpa [ofNat] using congrArg String.toList h
  have hvalue := congrArg (fun digits => Nat.ofDigitChars 10 digits 0) hdigits
  simpa using hvalue

/-- No digit of a natural number is a minus sign. -/
theorem minus_not_mem_ofNat (n : Nat) : '-' ∉ (ofNat n).toList := by
  intro hmem
  have hdigits : '-' ∈ Nat.toDigits 10 n := by simpa [ofNat] using hmem
  have hdigit := Nat.isDigit_of_mem_toDigits (by decide) (by decide) hdigits
  exact absurd hdigit (by decide)

/-- A decimal numeral determines its integer. -/
theorem ofInt_injective {m n : Int} (h : ofInt m = ofInt n) : m = n := by
  have hlists := congrArg String.toList h
  unfold ofInt at hlists
  split at hlists <;> split at hlists
  · have := ofNat_injective (String.toList_injective (by simpa using hlists))
    omega
  · exact absurd (hlists ▸ by simp) (minus_not_mem_ofNat n.natAbs)
  · exact absurd (hlists ▸ by simp) (minus_not_mem_ofNat m.natAbs)
  · have := ofNat_injective (String.toList_injective hlists)
    omega

/-- Can this character stand in a numeral? -/
def isNumeralChar (c : Char) : Bool :=
  c.isDigit || c = '-'

/-- A numeral is not empty and consists of digits, perhaps with a minus sign. -/
theorem exists_ofInt (n : Int) :
    ∃ c text, (ofInt n).toList = c :: text ∧ ∀ d ∈ c :: text, isNumeralChar d = true := by
  obtain ⟨c, digits, hdigits⟩ :=
    List.exists_cons_of_ne_nil (Nat.toDigits_ne_nil (n := n.natAbs) (b := 10))
  have hall : ∀ d ∈ c :: digits, isNumeralChar d = true := by
    intro d hd
    rw [← hdigits] at hd
    rw [isNumeralChar, Nat.isDigit_of_mem_toDigits (by decide) (by decide) hd, Bool.true_or]
  have hnat : (ofNat n.natAbs).toList = c :: digits := by
    rw [ofNat, String.toList_ofList, hdigits]
  by_cases h : n < 0
  · refine ⟨'-', c :: digits, by rw [ofInt, if_pos h, String.toList_append, hnat]; rfl, ?_⟩
    exact List.forall_mem_cons.2 ⟨by decide, hall⟩
  · exact ⟨c, digits, by rw [ofInt, if_neg h, hnat], hall⟩

theorem isNumeralChar_of_mem {n : Int} {c : Char} (h : c ∈ (ofInt n).toList) :
    isNumeralChar c = true := by
  obtain ⟨d, text, htext, hall⟩ := exists_ofInt n
  exact hall c (htext ▸ h)

end TileTrace.Decimal
