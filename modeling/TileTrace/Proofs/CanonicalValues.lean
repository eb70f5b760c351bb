import TileTrace.Proofs.BuiltValues
import TileTrace.Proofs.Folding

/-!
# Built values are canonical

The constructors of values fold what they can, so nothing is left to fold in a
value that they have made. `Canonical` says what is absent from such a value, with
no mention of a constructor. An operation that is left in a value is one that its
constructor leaves as it is: `combined_eq_binary_iff` and `negated_eq_neg_iff`. A
canonical value is therefore its own result when it is built up again from its
words and symbols. `built_iff_canonical` is the main theorem.
-/

namespace TileTrace.Value

/-- Nothing can be done about the operation: its operands are not two words with a word as their
exact result, and it is no division by the word zero. -/
structure Stays (op : Operator) (l r : Value) : Prop where
  unfoldable : ∀ a b, l = concrete a → r = concrete b →
    ¬∃ n, op.result? a.toInt b.toInt = some n ∧ Word.Fits n
  divisor : op = .floorDiv ∨ op = .mod → r ≠ concrete 0

/-- All operations in the value have to stay, no word is negated but the least one, and all symbols
have names. -/
def Canonical : Value → Prop
  | concrete _ => True
  | symbolic name => name ≠ ""
  | neg operand => (∀ w, operand = concrete w → w = Int64.minValue) ∧ operand.Canonical
  | binary op l r => Stays op l r ∧ l.Canonical ∧ r.Canonical

/-- The term that builds the value up from its words and symbols. -/
def term : Value → Term
  | concrete w => .word w
  | symbolic name => .symbol name
  | neg operand => .neg operand.term
  | binary op l r => .binary op l.term r.term

variable {op : Operator} {l r v : Value}

/-! ## What constructors leave as it is -/

/-- An operation is left as it is exactly if nothing can be done about it. -/
theorem combined_eq_binary_iff {op' : Operator} {l' r' : Value} :
    combined op l r = .ok (binary op' l' r') ↔ (op = op' ∧ l = l' ∧ r = r') ∧ Stays op' l' r' := by
  rw [combined_ok]
  constructor
  · rintro ⟨hzero, hresult⟩
    obtain hkept | ⟨a, b, result, rfl, rfl, hfolded⟩ := foldedOr_cases op l r
    · obtain ⟨rfl, rfl, rfl⟩ := binary.inj (hresult.trans hkept)
      refine ⟨⟨rfl, rfl, rfl⟩, ?_, dividesByZero_eq_false_iff.1 hzero⟩
      rintro a b rfl rfl
      exact (folded?_eq_none hzero).1 (foldedOr_eq_binary.1 hkept)
    · cases hresult.trans hfolded
  · rintro ⟨⟨rfl, rfl, rfl⟩, hstays⟩
    have hzero := dividesByZero_eq_false_iff.2 hstays.divisor
    refine ⟨hzero, ?_⟩
    obtain hkept | ⟨a, b, result, rfl, rfl, hfolded⟩ := foldedOr_cases op l r
    · exact hkept.symm
    · exact (foldedOr_eq_binary.2 ((folded?_eq_none hzero).2 (hstays.unfoldable a b rfl rfl))).symm

/-! ## Built values -/

/-- What the constructors make is canonical. -/
theorem Built.canonical (h : v.Built) : v.Canonical := by
  refine h.induction (fun _ => trivial) (fun _ hne => hne) ?_ ?_
  · exact fun operand hkept hoperand => ⟨(negated_eq_neg_iff.1 hkept).2, hoperand⟩
  · exact fun op l r hkept hl hr => ⟨(combined_eq_binary_iff.1 hkept).2, hl, hr⟩

/-- A term over built values builds one. -/
theorem Term.built_of_build {bindings : Bindings} {t : Term}
    (hbindings : ∀ x v, bindings.lookup x = some v → v.Built) (h : t.build bindings = .ok v) :
    v.Built := by
  induction t generalizing v with
  | word w =>
      cases h
      exact .word w
  | symbol name => exact .symbol name v h
  | var x =>
      rw [build] at h
      split at h
      · next hx =>
          cases h
          exact hbindings x v hx
      · cases h
  | neg operand ih =>
      obtain ⟨w, hw, hv⟩ := except_bind_ok.1 h
      cases hv
      exact .negated w (ih hw)
  | binary op left right ihl ihr =>
      obtain ⟨l, hl, h⟩ := except_bind_ok.1 h
      obtain ⟨r, hr, h⟩ := except_bind_ok.1 h
      exact .combined op l r v (ihl hl) (ihr hr) h

/-! ## Building up again -/

/-- A canonical value is its own result when it is built up again. No other value is. -/
theorem canonical_iff_build : v.Canonical ↔ v.term.build [] = .ok v := by
  induction v with
  | concrete w => exact iff_of_true trivial rfl
  | symbolic name => exact (symbol_ok.trans (and_iff_left rfl)).symm
  | neg operand ih =>
      rw [Canonical, term, Term.build, except_bind_ok]
      constructor
      · rintro ⟨hleast, hoperand⟩
        exact ⟨operand, ih.1 hoperand, congrArg _ (negated_eq_neg_iff.2 ⟨rfl, hleast⟩)⟩
      · rintro ⟨w, hbuild, hnegated⟩
        obtain ⟨rfl, hleast⟩ := negated_eq_neg_iff.1 (Except.ok.inj hnegated)
        exact ⟨hleast, ih.2 hbuild⟩
  | binary op l r ihl ihr =>
      simp only [Canonical, term, Term.build, except_bind_ok]
      constructor
      · rintro ⟨hstays, hl, hr⟩
        exact ⟨l, ihl.1 hl, r, ihr.1 hr, combined_eq_binary_iff.2 ⟨⟨rfl, rfl, rfl⟩, hstays⟩⟩
      · rintro ⟨l', hl, r', hr, hcombined⟩
        obtain ⟨⟨-, rfl, rfl⟩, hstays⟩ := combined_eq_binary_iff.1 hcombined
        exact ⟨hstays, ihl.2 hl, ihr.2 hr⟩

/-- What the constructors make, in whatever way, are the canonical values: nothing in them is left
to fold, to refuse, or to name. These are the values that are built up again as they are. -/
theorem built_iff_canonical (v : Value) :
    (v.Built ↔ v.Canonical) ∧
    (v.Built ↔ ∃ t : Term, t.build [] = .ok v) ∧
    (v.Canonical ↔ ∃ w, v.term.build [] = .ok w ∧ same w v = true) := by
  have hbuilt {t : Term} (h : t.build [] = .ok v) : v.Built :=
    Term.built_of_build (fun x w hx => by cases hx) h
  refine ⟨⟨Built.canonical, fun h => hbuilt (canonical_iff_build.1 h)⟩,
    ⟨fun h => ⟨v.term, canonical_iff_build.1 h.canonical⟩, fun ⟨_, h⟩ => hbuilt h⟩, ?_⟩
  rw [canonical_iff_build]
  constructor
  · exact fun h => ⟨v, h, (same_iff_eq v v).2 rfl⟩
  · rintro ⟨w, hbuild, hsame⟩
    obtain rfl := (same_iff_eq w v).1 hsame
    exact hbuild

/-- A power with a negative exponent stays, and so does a sum with it. A negated word does not. -/
example :
    (binary .add (binary .pow (concrete 2) (concrete (-1))) (concrete 3)).term.build [] =
      .ok (binary .add (binary .pow (concrete 2) (concrete (-1))) (concrete 3)) ∧
    (neg (concrete 3)).term.build [] = .ok (concrete (-3)) := by
  decide

end TileTrace.Value
