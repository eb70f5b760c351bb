import TileTrace.Proofs.ExactPowers
import TileTrace.Proofs.Substitution

/-!
# What values denote

Under an assignment of integers to names, a value denotes an integer, unless one
of its operations has no integer result. The integers are unbounded, so words
that overflow are no concern here. `Value.eval_foldedOr` says that eager
folding never changes what a value denotes, and `Value.Term.build_eval`,
the main theorem, that building a term keeps its meaning at every level, and is
refused only if the term has none.
-/

namespace TileTrace

/-- The integers that names stand for. -/
abbrev Assignment := String → Int

/-- The integer result of an operator. Nothing is divided by zero, and there are no powers with
negative exponents. -/
def Operator.result? : Operator → Int → Int → Option Int
  | add, a, b => some (a + b)
  | sub, a, b => some (a - b)
  | mul, a, b => some (a * b)
  | floorDiv, a, b => if b = 0 then none else some (a.fdiv b)
  | mod, a, b => if b = 0 then none else some (a.fmod b)
  | pow, a, b => if b < 0 then none else some (a ^ b.toNat)

namespace Value

/-- The integer that a value denotes, if all its operations have results. -/
def eval (assignment : Assignment) : Value → Option Int
  | concrete word => some word.toInt
  | symbolic name => some (assignment name)
  | neg operand => (operand.eval assignment).map (- ·)
  | binary op left right => do
      let a ← left.eval assignment
      let b ← right.eval assignment
      op.result? a b

/-- The integer that a term denotes as it is written, without any folding. -/
def Term.eval (bindings : Bindings) (assignment : Assignment) : Term → Option Int
  | .word w => some w.toInt
  | .symbol name => some (assignment name)
  | .var x => do (← bindings.lookup x).eval assignment
  | .neg operand => (operand.eval bindings assignment).map (- ·)
  | .binary op left right => do
      let a ← left.eval bindings assignment
      let b ← right.eval bindings assignment
      op.result? a b

/-- Every symbol of the term has a name, and every variable stands for a value. -/
def Term.Named (bindings : Bindings) : Term → Prop
  | .word _ => True
  | .symbol name => name ≠ ""
  | .var x => ∃ v, bindings.lookup x = some v
  | .neg operand => operand.Named bindings
  | .binary _ left right => left.Named bindings ∧ right.Named bindings

variable {assignment : Assignment} {op : Operator}

/-! ## Folding -/

/-- The negative of a value denotes the negative integer. -/
theorem eval_negated (v : Value) :
    v.negated.eval assignment = (v.eval assignment).map (- ·) := by
  cases v with
  | concrete word =>
      cases hneg : Word.neg? word with
      | none => simp only [negated, hneg, eval]
      | some result => simp only [negated, hneg, eval, Word.neg?_eq_some.1 hneg, Option.map_some]
  | symbolic _ | neg _ | binary _ _ _ => rfl

theorem dividesByZero_concrete {b : Int64} :
    dividesByZero op (concrete b) = false ↔ (op = .floorDiv ∨ op = .mod → b ≠ 0) := by
  rw [dividesByZero_eq_false_iff, ne_eq, concrete.injEq]

/-- An operation on two words folds to the integer result of the operator, when that is a word. -/
theorem folded?_eq_some {a b r : Int64} (hzero : dividesByZero op (concrete b) = false) :
    folded? op a b = some r ↔ op.result? a.toInt b.toInt = some r.toInt := by
  rw [dividesByZero_concrete] at hzero
  cases op with
  | add => exact Word.add?_eq_some.trans (by simp [Operator.result?, eq_comm])
  | sub => exact Word.sub?_eq_some.trans (by simp [Operator.result?, eq_comm])
  | mul => exact Word.mul?_eq_some.trans (by simp [Operator.result?, eq_comm])
  | floorDiv =>
      have hb : b ≠ 0 := hzero (.inl rfl)
      rw [Operator.result?, if_neg (Word.toInt_ne_zero hb), folded?,
        Word.floorQuotient?_eq_some hb, Option.some.injEq, eq_comm]
  | mod =>
      have hb : b ≠ 0 := hzero (.inr rfl)
      rw [Operator.result?, if_neg (Word.toInt_ne_zero hb), folded?,
        ← Word.toInt_floorRemainder hb, Option.some.injEq, Option.some.injEq, Int64.toInt_inj]
  | pow =>
      rw [Operator.result?, folded?, Word.power?_eq_some]
      split
      · next hneg => exact ⟨fun h => absurd h.1 (by omega), nofun⟩
      · next hneg => rw [Option.some.injEq, eq_comm, and_iff_right (by omega)]

/-- Folding an operation keeps what it denotes. -/
theorem eval_foldedOr {left right : Value} (hzero : dividesByZero op right = false) :
    (foldedOr op left right).eval assignment =
      (binary op left right).eval assignment := by
  unfold foldedOr
  split
  · next a b =>
      split
      · next r hfolded => exact ((folded?_eq_some hzero).1 hfolded).symm
      · rfl
  · rfl

/-- A quotient or a remainder by the word zero denotes nothing. -/
theorem eval_of_dividesByZero {left right : Value} (hzero : dividesByZero op right = true) :
    (binary op left right).eval assignment = none := by
  obtain ⟨hop, rfl⟩ : (op = .floorDiv ∨ op = .mod) ∧ right = concrete 0 := by
    simpa [dividesByZero] using hzero
  cases hleft : left.eval assignment with
  | none => simp [eval, hleft]
  | some a => obtain rfl | rfl := hop <;> simp [eval, hleft, Operator.result?]

/-- An operator on two values gives a value that denotes the result, or is refused where there is
none. -/
theorem combined_eval (op : Operator) (left right : Value) :
    (∃ v, combined op left right = .ok v ∧
      ∀ assignment, v.eval assignment = (binary op left right).eval assignment) ∨
    ∃ dividend, combined op left right = .error (.divisionByZero dividend op) ∧
      ∀ assignment, (binary op left right).eval assignment = none := by
  cases hzero : dividesByZero op right with
  | false =>
      exact .inl ⟨foldedOr op left right, combined_ok.2 ⟨hzero, rfl⟩,
        fun _ => eval_foldedOr hzero⟩
  | true =>
      exact .inr ⟨left.text, by rw [combined, if_pos hzero],
        fun _ => eval_of_dividesByZero hzero⟩

/-! ## Terms -/

/-- Building a term gives a value that denotes what the term denotes, under every assignment. It is
refused only for a division by zero, and then the term denotes nothing under any assignment. -/
theorem Term.build_eval {bindings : Bindings} {t : Term} (h : t.Named bindings) :
    (∃ v, t.build bindings = .ok v ∧
      ∀ assignment, v.eval assignment = t.eval bindings assignment) ∨
    ∃ dividend op, t.build bindings = .error (.divisionByZero dividend op) ∧
      ∀ assignment, t.eval bindings assignment = none := by
  induction t with
  | word w => exact .inl ⟨concrete w, rfl, fun _ => rfl⟩
  | symbol name =>
      have hname : name.isEmpty = false := by simpa [Named, String.isEmpty_iff] using h
      exact .inl ⟨symbolic name, by simp [build, Value.symbol, hname], fun _ => rfl⟩
  | var x =>
      obtain ⟨v, hv⟩ := h
      refine .inl ⟨v, by simp [build, hv], fun _ => ?_⟩
      rw [Term.eval, hv]
      rfl
  | neg operand ih =>
      obtain ⟨v, hv, hmeans⟩ | ⟨dividend, op, hrefused, hnone⟩ := ih h
      · refine .inl ⟨v.negated, by rw [build, hv]; rfl, fun assignment => ?_⟩
        rw [eval_negated, hmeans, Term.eval]
      · refine .inr ⟨dividend, op, by rw [build, hrefused]; rfl, fun assignment => ?_⟩
        rw [Term.eval, hnone]
        rfl
  | binary op left right ihl ihr =>
      obtain ⟨l, hl, hmeansLeft⟩ | ⟨dividend, op', hrefused, hnone⟩ := ihl h.1
      · obtain ⟨r, hr, hmeansRight⟩ | ⟨dividend, op', hrefused, hnone⟩ := ihr h.2
        · have hbuild : (Term.binary op left right).build bindings = combined op l r := by
            rw [build, hl, hr]
            rfl
          have hmeans assignment : (Value.binary op l r).eval assignment =
              (Term.binary op left right).eval bindings assignment := by
            rw [Value.eval, Term.eval, hmeansLeft, hmeansRight]
          rw [hbuild]
          simp only [← hmeans]
          refine (combined_eval op l r).imp_right ?_
          rintro ⟨dividend, hrefused⟩
          exact ⟨dividend, op, hrefused⟩
        · refine .inr ⟨dividend, op', by rw [build, hl, hrefused]; rfl, fun assignment => ?_⟩
          rw [Term.eval, hnone]
          cases left.eval bindings assignment <;> rfl
      · refine .inr ⟨dividend, op', by rw [build, hrefused]; rfl, fun assignment => ?_⟩
        rw [Term.eval, hnone]
        rfl

/-- The sum of a folded product and a quotient that has no word. -/
def leastQuotientTerm : Term :=
  .binary .add (.binary .mul (.symbol "i") (.binary .floorDiv (.word 7) (.word (-2))))
    (.binary .floorDiv (.word Int64.minValue) (.neg (.word 1)))

/-- A remainder whose divisor folds to zero. -/
def zeroRemainderTerm : Term :=
  .binary .mod (.symbol "i") (.binary .sub (.word 3) (.word 3))

/-- Of the first term a part stays unfolded, and the second one is refused. -/
theorem Term.build_eval_least :
    leastQuotientTerm.Named [] ∧
    leastQuotientTerm.build [] = .ok (.binary .add
      (.binary .mul (.symbolic "i") (.concrete (-4)))
      (.binary .floorDiv (.concrete Int64.minValue) (.concrete (-1)))) ∧
    (∀ assignment, (Value.binary .add (.binary .mul (.symbolic "i") (.concrete (-4)))
        (.binary .floorDiv (.concrete Int64.minValue) (.concrete (-1)))).eval assignment =
      leastQuotientTerm.eval [] assignment) ∧
    zeroRemainderTerm.Named [] ∧
    zeroRemainderTerm.build [] = .error (.divisionByZero "i" .mod) ∧
    ∀ assignment, zeroRemainderTerm.eval [] assignment = none := by
  have hleast : leastQuotientTerm.Named [] :=
    ⟨⟨(by decide : "i" ≠ ""), trivial, trivial⟩, trivial, trivial⟩
  have hleastBuilt : leastQuotientTerm.build [] = .ok (.binary .add
      (.binary .mul (.symbolic "i") (.concrete (-4)))
      (.binary .floorDiv (.concrete Int64.minValue) (.concrete (-1)))) := by decide
  have hzero : zeroRemainderTerm.Named [] := ⟨(by decide : "i" ≠ ""), trivial, trivial⟩
  have hzeroBuilt : zeroRemainderTerm.build [] = .error (.divisionByZero "i" .mod) := by decide
  refine ⟨hleast, hleastBuilt, ?_, hzero, hzeroBuilt, ?_⟩
  · obtain ⟨v, hv, hmeans⟩ | ⟨_, _, hrefused, -⟩ := Term.build_eval hleast
    · cases hv.symm.trans hleastBuilt
      exact hmeans
    · cases hrefused.symm.trans hleastBuilt
  · obtain ⟨v, hv, -⟩ | ⟨_, _, -, hnone⟩ := Term.build_eval hzero
    · cases hv.symm.trans hzeroBuilt
    · exact hnone

end Value

end TileTrace
