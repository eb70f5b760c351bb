import TileTrace.Coordinate

/-!
# Trees that cannot be written

A tree is a raw record, so an operator may have any number of operands and any
spelling. A `Fault` is what can be wrong with one node. Writing looks at the
parts of a tree only, and operands that hang on a number, a name, or the empty
expression are no parts. Two functions look for faults: `text` counts operands,
and `strength` asks for the operators of operands before they are written
themselves. `checks_text` says that together they find a fault exactly if some
part has one. `Expr.text_fails_iff` is the main theorem.
-/

namespace TileTrace

/-! ## Checking computations -/

section Checks

variable {α β : Type} {wrong : Error → Prop} {x : Except Error α} {f : α → Except Error β}

/-- The computation fails exactly if something is wrong, and with an error that is. -/
def Checks (wrong : Error → Prop) : Except Error α → Prop
  | .ok _ => ∀ error, ¬wrong error
  | .error error => wrong error

/-- A computation checks when its first part finds only what is wrong, and the rest checks if the
first part finds nothing. -/
theorem Checks.bind (hfails : ∀ error, x = .error error → wrong error)
    (hreturns : ∀ a, x = .ok a → Checks wrong (f a)) : Checks wrong (x >>= f) := by
  cases x with
  | error error => exact hfails error rfl
  | ok a => exact hreturns a rfl

theorem Checks.pure {a : α} (h : ∀ error, ¬wrong error) : Checks wrong (pure a) :=
  h

theorem Checks.of_error (h : Checks wrong x) {error : Error} (hx : x = .error error) :
    wrong error := by
  rwa [hx] at h

theorem Checks.of_ok (h : Checks wrong x) {a : α} (hx : x = .ok a) (error : Error) :
    ¬wrong error := by
  rw [hx] at h
  exact h error

/-- Something is wrong exactly if the computation fails. -/
theorem Checks.exists_error_iff (h : Checks wrong x) :
    (∃ error, x = .error error) ↔ ∃ error, wrong error := by
  cases x with
  | error error => exact ⟨fun _ => ⟨error, h⟩, fun _ => ⟨error, rfl⟩⟩
  | ok a => exact ⟨nofun, fun ⟨error, hwrong⟩ => absurd hwrong (h error)⟩

end Checks

/-! ## Faults -/

/-- The spellings of the operators. -/
def Operator.symbols : List String :=
  ["+", "-", "*", "//", "%", "**"]

theorem Operator.mem_symbols {s : String} : s ∈ symbols ↔ ∃ op : Operator, op.symbol = s := by
  constructor
  · simp only [symbols, List.mem_cons, List.not_mem_nil, or_false]
    rintro (rfl | rfl | rfl | rfl | rfl | rfl)
    · exact ⟨add, rfl⟩
    · exact ⟨sub, rfl⟩
    · exact ⟨mul, rfl⟩
    · exact ⟨floorDiv, rfl⟩
    · exact ⟨mod, rfl⟩
    · exact ⟨pow, rfl⟩
  · rintro ⟨op, rfl⟩
    cases op <;> simp [symbols, symbol]

/-- Whether the operands of such a node are written. -/
def ExprKind.writesOperands : ExprKind → Bool
  | tuple | unary | binary => true
  | constant | none | name => false

namespace Expr

/-- What is wrong with a node, whatever its operands are: their number, or the operator. -/
inductive Fault : Expr → Error → Prop where
  | unary (value : Int) (symbol : String) (operands : List Expr) :
      operands.length ≠ 1 →
      Fault (node .unary value symbol operands) (.operandCount 1 operands.length)
  | binary (value : Int) (symbol : String) (operands : List Expr) :
      operands.length ≠ 2 →
      Fault (node .binary value symbol operands) (.operandCount 2 operands.length)
  | operator (value : Int) (symbol : String) (operands : List Expr) :
      symbol ∉ Operator.symbols →
      Fault (node .binary value symbol operands) (.unknownOperator symbol)

/-- The parts of a tree: the tree itself, and the parts of the operands of tuples and operators. -/
inductive PartOf : Expr → Expr → Prop where
  | root (e : Expr) : PartOf e e
  | operand (kind : ExprKind) (value : Int) (name : String) (operands : List Expr) (e x : Expr) :
      kind.writesOperands = true → e ∈ operands → PartOf x e →
      PartOf x (node kind value name operands)

/-- The error is for a fault of some part. -/
def FaultWithin (e : Expr) (error : Error) : Prop :=
  ∃ x, PartOf x e ∧ x.Fault error

variable {kind : ExprKind} {value : Int} {name symbol : String} {operands : List Expr}
  {e l r : Expr} {error : Error}

theorem Fault.within (h : e.Fault error) : e.FaultWithin error :=
  ⟨e, .root e, h⟩

theorem FaultWithin.operand (h : e.FaultWithin error) (hkind : kind.writesOperands = true)
    (he : e ∈ operands) : (node kind value name operands).FaultWithin error := by
  obtain ⟨x, hpart, hfault⟩ := h
  exact ⟨x, .operand kind value name operands e x hkind he hpart, hfault⟩

/-- Nothing is wrong with a tree when nothing is wrong with its root and its operands. -/
theorem not_faultWithin (hroot : ∀ error, ¬(node kind value name operands).Fault error)
    (hoperands : kind.writesOperands = true → ∀ e ∈ operands, ∀ error, ¬e.FaultWithin error) :
    ∀ error, ¬(node kind value name operands).FaultWithin error := by
  rintro error ⟨x, hpart, hfault⟩
  cases hpart with
  | root => exact hroot error hfault
  | operand _ _ _ _ e _ hkind he hpart => exact hoperands hkind e he error ⟨x, hpart, hfault⟩

/-! ## Writing -/

theorem mem_symbols_of_operator {op : Operator} (h : operator symbol = .ok op) :
    symbol ∈ Operator.symbols := by
  unfold operator at h
  split at h
  · next hop => exact Operator.mem_symbols.2 ⟨_, Operator.symbol_of_ofSymbol? hop⟩
  · cases h

theorem fault_of_operator_error (h : operator symbol = .error error) :
    (node .binary value symbol operands).Fault error := by
  unfold operator at h
  split at h
  · cases h
  · next hnone =>
      cases h
      refine .operator value symbol operands fun hmem => ?_
      obtain ⟨op, rfl⟩ := Operator.mem_symbols.1 hmem
      rw [Operator.ofSymbol?_symbol] at hnone
      cases hnone

/-- How tightly a tree holds together is unknown only because of a fault of its root. -/
theorem fault_of_strength_error (h : e.strength = .error error) : e.Fault error := by
  cases e with
  | node kind value name operands =>
      cases kind with
      | binary =>
          rw [strength] at h
          cases hop : operator name with
          | error error' =>
              rw [hop] at h
              cases h
              exact fault_of_operator_error hop
          | ok op =>
              rw [hop] at h
              cases h
      | constant | none | name | tuple | unary => cases h

/-- A tuple is written when its elements are. -/
theorem checks_tuple
    (h : Checks (fun error => ∃ e ∈ operands, e.FaultWithin error) (texts operands)) :
    Checks (node .tuple value name operands).FaultWithin
      (node .tuple value name operands).text := by
  rw [text]
  refine .bind (fun error hfails => ?_) fun ts hts => .pure (not_faultWithin nofun ?_)
  · obtain ⟨e, he, hwithin⟩ := h.of_error hfails
    exact hwithin.operand rfl he
  · exact fun _ e he error hwithin => h.of_ok hts error ⟨e, he, hwithin⟩

/-- A sign is written when its operand is. -/
theorem checks_unary (h : Checks e.FaultWithin e.text) :
    Checks (node .unary value symbol [e]).FaultWithin (node .unary value symbol [e]).text := by
  rw [text]
  refine .bind (fun error hfails => ?_) fun s _ =>
    .bind (fun error hfails => ?_) fun t ht => .pure (not_faultWithin ?_ fun _ => ?_)
  · exact (fault_of_strength_error hfails).within.operand rfl List.mem_cons_self
  · exact (h.of_error hfails).operand rfl List.mem_cons_self
  · rintro error ⟨_, _, _, hcount⟩
    exact hcount rfl
  · exact List.forall_mem_singleton.2 (h.of_ok ht)

/-- An operator is written when it is known and its operands are written. -/
theorem checks_binary (hl : Checks l.FaultWithin l.text) (hr : Checks r.FaultWithin r.text) :
    Checks (node .binary value symbol [l, r]).FaultWithin
      (node .binary value symbol [l, r]).text := by
  have hleft : l ∈ [l, r] := List.mem_cons_self
  have hright : r ∈ [l, r] := List.mem_cons_of_mem l List.mem_cons_self
  rw [text]
  refine .bind (fun error hfails => ?_) fun op hop =>
    .bind (fun error hfails => ?_) fun s _ => .bind (fun error hfails => ?_) fun s' _ =>
    .bind (fun error hfails => ?_) fun t ht => .bind (fun error hfails => ?_) fun t' ht' =>
    .pure (not_faultWithin ?_ fun _ => ?_)
  · exact (fault_of_operator_error hfails).within
  -- Asking for a strength finds no fault that writing the operand would not find.
  · exact (fault_of_strength_error hfails).within.operand rfl hleft
  · exact (fault_of_strength_error hfails).within.operand rfl hright
  · exact (hl.of_error hfails).operand rfl hleft
  · exact (hr.of_error hfails).operand rfl hright
  · rintro error (_ | ⟨_, _, _, hcount⟩ | ⟨_, _, _, hunknown⟩)
    · exact hcount rfl
    · exact hunknown (mem_symbols_of_operator hop)
  · exact List.forall_mem_cons.2 ⟨hl.of_ok ht, List.forall_mem_singleton.2 (hr.of_ok ht')⟩

mutual
/-- Writing a tree finds a fault exactly if some part has one. -/
theorem checks_text : ∀ e : Expr, Checks e.FaultWithin e.text
  | node .constant _ _ _ => not_faultWithin nofun nofun
  | node .none _ _ _ => not_faultWithin nofun nofun
  | node .name _ _ _ => not_faultWithin nofun nofun
  | node .tuple _ _ elements => checks_tuple (checks_texts elements)
  | node .unary _ _ [operand] => checks_unary (checks_text operand)
  -- A wrong number of operands is a fault of the root, which is found before any other.
  | node .unary value symbol [] => (Fault.unary value symbol [] (by decide)).within
  | node .unary value symbol (e :: e' :: es) =>
      (Fault.unary value symbol (e :: e' :: es) (by simp)).within
  | node .binary _ _ [l, r] => checks_binary (checks_text l) (checks_text r)
  | node .binary value symbol [] => (Fault.binary value symbol [] (by decide)).within
  | node .binary value symbol [e] => (Fault.binary value symbol [e] (by simp)).within
  | node .binary value symbol (e :: e' :: e'' :: es) =>
      (Fault.binary value symbol (e :: e' :: e'' :: es) (by simp)).within

/-- Writing the elements of a tuple finds a fault exactly if some part of one has one. -/
theorem checks_texts : ∀ es : List Expr,
    Checks (fun error => ∃ e ∈ es, e.FaultWithin error) (texts es)
  | [] => nofun
  | e :: es => by
      have hhead := checks_text e
      have htail := checks_texts es
      rw [texts]
      refine .bind (fun error hfails => ?_) fun t ht => .bind (fun error hfails => ?_)
        fun ts hts => .pure ?_
      · exact ⟨e, List.mem_cons_self, hhead.of_error hfails⟩
      · obtain ⟨e', he', hwithin⟩ := htail.of_error hfails
        exact ⟨e', List.mem_cons_of_mem e he', hwithin⟩
      · rintro error ⟨e', he', hwithin⟩
        obtain rfl | he' := List.mem_cons.1 he'
        · exact hhead.of_ok ht error hwithin
        · exact htail.of_ok hts error ⟨e', he', hwithin⟩
end

/-- Writing a tree fails exactly if a part has a fault: a sign without exactly one operand, an
operator without exactly two, or an operator with an unknown spelling. The error is for such a part.
The trees of coordinates and values are always written. -/
theorem text_fails_iff :
    (∀ e : Expr,
      ((∃ error, e.text = .error error) ↔ ∃ x error, PartOf x e ∧ x.Fault error) ∧
      ∀ error, e.text = .error error → ∃ x, PartOf x e ∧ x.Fault error) ∧
    (∀ c : Coordinate, ∃ text, c.expr.text = .ok text) ∧
    ∀ v : Value, ∃ text, v.expr.text = .ok text := by
  refine ⟨fun e => ⟨?_, fun error => (checks_text e).of_error⟩, fun c => ⟨_, c.expr_text⟩,
    fun v => ⟨_, v.expr_text⟩⟩
  rw [(checks_text e).exists_error_iff]
  exact exists_comm

/-- A sign in front of an operator that has an unknown spelling and an operand too few. -/
def mistyped : Expr :=
  .unary "-" (node .binary 0 "@" [.reference "x"])

/-- A name with an operand that no name needs, a sign without operand. -/
def overloaded : Expr :=
  node .name 0 "x" [node .unary 0 "-" []]

/-- The strength of an operand is asked for before its operands are counted. What hangs on a name
is no part. -/
theorem text_fails_iff_mistyped :
    mistyped.text = .error (.unknownOperator "@") ∧
    (∃ x, PartOf x mistyped ∧ x.Fault (.unknownOperator "@")) ∧
    ¬∃ x error, PartOf x overloaded ∧ x.Fault error := by
  have hmistyped : mistyped.text = .error (.unknownOperator "@") := rfl
  have hoverloaded : overloaded.text = .ok "x" := rfl
  refine ⟨hmistyped, (text_fails_iff.1 mistyped).2 _ hmistyped, fun hfault => ?_⟩
  obtain ⟨error, hfails⟩ := (text_fails_iff.1 overloaded).1.2 hfault
  cases hoverloaded.symm.trans hfails

end Expr
end TileTrace
