import TileTrace.Value

/-!
# Built values

Values are made by their constructors only, which fold words. `Value.Built` is
what they make. By `Value.Built.induction`, a negation or an operation in a built
value is one that its constructor leaves as it is. So a word under a negation is
the least one: of every other word the negative is a word.
-/

namespace TileTrace

namespace Value

/-- The values that the constructors make. -/
inductive Built : Value → Prop where
  | word (w : Int64) : Built (concrete w)
  | symbol (name : String) (v : Value) : symbol name = .ok v → Built v
  | negated (v : Value) : Built v → Built v.negated
  | combined (op : Operator) (l r v : Value) :
      Built l → Built r → combined op l r = .ok v → Built v

/-- No word stands under a negation but the least one, which has no negative. -/
def NegatesNoWord : Value → Prop
  | concrete _ | symbolic _ => True
  | neg operand => (∀ w, operand = concrete w → w = Int64.minValue) ∧ operand.NegatesNoWord
  | binary _ left right => left.NegatesNoWord ∧ right.NegatesNoWord

/-- The names of the symbols in a value. -/
def names : Value → List String
  | concrete _ => []
  | symbolic name => [name]
  | neg operand => operand.names
  | binary _ left right => left.names ++ right.names

variable {v : Value}

/-- Only the least word stays under a negation. -/
theorem negated_eq_neg_iff {operand : Value} :
    v.negated = neg operand ↔
      v = operand ∧ ∀ w, operand = concrete w → w = Int64.minValue := by
  cases v with
  | concrete a =>
      by_cases hleast : a = Int64.minValue
      · rw [Value.negated, Word.neg?, if_pos hleast, neg.injEq]
        refine (and_iff_left_of_imp ?_).symm
        rintro rfl w hw
        rwa [← concrete.inj hw]
      · rw [Value.negated, Word.neg?, if_neg hleast]
        refine iff_of_false (by simp) ?_
        rintro ⟨rfl, hword⟩
        exact hleast (hword a rfl)
  | symbolic _ | neg _ | binary _ _ _ =>
      rw [Value.negated, neg.injEq]
      · refine (and_iff_left_of_imp ?_).symm
        rintro rfl w hw
        cases hw
      · simp

/-- Induction on what the constructors leave as it is: there are no other negations and operations
in a built value. -/
theorem Built.induction {P : Value → Prop} (hword : ∀ w, P (concrete w))
    (hsymbol : ∀ name, name ≠ "" → P (symbolic name))
    (hneg : ∀ operand, operand.negated = neg operand → P operand → P (neg operand))
    (hbinary : ∀ op l r, Value.combined op l r = .ok (binary op l r) →
      P l → P r → P (binary op l r))
    (h : v.Built) : P v := by
  induction h with
  | word w => exact hword w
  | symbol name v hv =>
      obtain ⟨hne, rfl⟩ := symbol_ok.1 hv
      exact hsymbol name hne
  | negated v _ ih =>
      obtain hkept | ⟨_, result, -, hfolded⟩ := v.negated_cases
      · rw [hkept]
        exact hneg v hkept ih
      · rw [hfolded]
        exact hword result
  | combined op l r v _ _ hv ihl ihr =>
      obtain ⟨-, rfl⟩ := combined_ok.1 hv
      obtain hkept | ⟨_, _, result, -, -, hfolded⟩ := foldedOr_cases op l r
      · rw [hkept] at hv ⊢
        exact hbinary op l r hv ihl ihr
      · rw [hfolded]
        exact hword result

/-- A negation of a word that has a negative is never built. -/
theorem Built.negatesNoWord (h : v.Built) : v.NegatesNoWord := by
  refine h.induction (fun _ => trivial) (fun _ _ => trivial) ?_ (fun _ _ _ _ hl hr => ⟨hl, hr⟩)
  exact fun operand hkept hoperand => ⟨(negated_eq_neg_iff.1 hkept).2, hoperand⟩

end Value

end TileTrace
