import Mathlib.Data.List.Forall2
import TileTrace.Session.State

/-!
# Substitution

Replacing symbols in a recorded value and building it up again gives the value
that the program computes when its variables stand for the replacements. This is
`Value.Term.build_substitute`, and it is what eager folding has to respect: it
does not matter whether words meet in an operation when it is recorded or when
it is built again. The same holds for coordinates, for arguments of steps, and
for the tags that steps get from them.
-/

namespace TileTrace

/-- A computation that may fail has a result when its first part has one and the rest does. -/
theorem except_bind_ok {ε α β : Type} {x : Except ε α} {f : α → Except ε β} {b : β} :
    x >>= f = .ok b ↔ ∃ a, x = .ok a ∧ f a = .ok b := by
  cases x with
  | error e => simp [bind, Except.bind]
  | ok a => simp [bind, Except.bind]

/-- Lists that two computations make from one list agree one by one if their elements do. -/
theorem mapM_forall₂ {α β γ : Type} {R : β → γ → Prop} {f : α → Except Error β}
    {g : α → Except Error γ} {xs : List α}
    (h : ∀ x ∈ xs, ∀ {y z}, f x = .ok y → g x = .ok z → R y z) {ys : List β} {zs : List γ}
    (hys : xs.mapM f = .ok ys) (hzs : xs.mapM g = .ok zs) : List.Forall₂ R ys zs := by
  induction xs generalizing ys zs with
  | nil =>
      cases hys
      cases hzs
      exact .nil
  | cons x xs ih =>
      rw [List.mapM_cons] at hys hzs
      obtain ⟨y, hy, hys⟩ := except_bind_ok.1 hys
      obtain ⟨ys', hys', hys⟩ := except_bind_ok.1 hys
      obtain ⟨z, hz, hzs⟩ := except_bind_ok.1 hzs
      obtain ⟨zs', hzs', hzs⟩ := except_bind_ok.1 hzs
      cases hys
      cases hzs
      exact .cons (h x List.mem_cons_self hy hz)
        (ih (fun x hx => h x (List.mem_cons_of_mem _ hx)) hys' hzs')

/-- The names that induction symbols get. -/
def Reserved (name : String) : Prop :=
  ∃ n, name = SymbolSource.nameAt "tile" n ∨ name = SymbolSource.nameAt "coord" n

namespace Value

/-- The bindings replace reserved names only. -/
def Bindings.Plain (σ : Bindings) : Prop :=
  ∀ name, ¬Reserved name → σ.lookup name = none

/-- The value with its symbols replaced, built up again. There is none when that divides by
zero. -/
def substitute (σ : Bindings) : Value → Option Value
  | concrete word => some (concrete word)
  | symbolic name => some ((σ.lookup name).getD (symbolic name))
  | neg operand => (operand.substitute σ).map negated
  | binary op left right => do
      let left ← left.substitute σ
      let right ← right.substitute σ
      (combined op left right).toOption

/-- Replacing symbols in a negative. -/
theorem substitute_negated {σ : Bindings} {v w : Value} (h : v.substitute σ = some w) :
    (negated v).substitute σ = some (negated w) := by
  obtain hkept | ⟨word, result, rfl, hfolded⟩ := v.negated_cases
  · -- The negation was kept, so it is done when the value is built up again.
    rw [hkept, substitute, h]
    rfl
  · obtain rfl : concrete word = w := Option.some.inj h
    rw [hfolded]
    rfl

/-- Replacing symbols in a combined value. -/
theorem substitute_combined {σ : Bindings} {op : Operator} {left right v left' right' w : Value}
    (hleft : left.substitute σ = some left') (hright : right.substitute σ = some right')
    (hv : combined op left right = .ok v) (hw : combined op left' right' = .ok w) :
    v.substitute σ = some w := by
  obtain ⟨-, rfl⟩ := combined_ok.1 hv
  obtain hkept | ⟨a, b, result, rfl, rfl, hfolded⟩ := foldedOr_cases op left right
  · -- The operation was kept, so it is done when the value is built up again.
    rw [hkept, substitute, hleft, hright]
    change (combined op left' right').toOption = some w
    rw [hw]
    rfl
  · -- Both operands were words already.
    obtain rfl : concrete a = left' := Option.some.inj hleft
    obtain rfl : concrete b = right' := Option.some.inj hright
    obtain ⟨-, rfl⟩ := combined_ok.1 hw
    rw [hfolded]
    rfl

/-- Variables stand for values with and without symbols, and replacing symbols turns the first
into the second. -/
def Bindings.Agree (σ : Bindings) (recorded normal : Bindings) : Prop :=
  List.Forall₂ (fun b b' => b.1 = b'.1 ∧ b.2.substitute σ = some b'.2) recorded normal

/-- A variable stands for values that agree. -/
theorem Bindings.Agree.lookup {σ recorded normal : Bindings} (h : Bindings.Agree σ recorded normal)
    (x : String) :
    (recorded.lookup x = none ∧ normal.lookup x = none) ∨
      ∃ v w, recorded.lookup x = some v ∧ normal.lookup x = some w ∧ v.substitute σ = some w := by
  induction h with
  | nil => exact .inl ⟨rfl, rfl⟩
  | @cons b b' recorded normal hfirst _ ih =>
      obtain ⟨name, v⟩ := b
      obtain ⟨name', w⟩ := b'
      obtain ⟨rfl, hvalue⟩ := hfirst
      cases hname : x == name with
      | true =>
          refine .inr ⟨v, w, ?_, ?_, hvalue⟩
          · rw [List.lookup_cons, hname]
          · rw [List.lookup_cons, hname]
      | false =>
          rw [List.lookup_cons, List.lookup_cons, hname]
          exact ih

/-- The term has no reserved symbol. -/
def Term.Plain : Term → Prop
  | .word _ => True
  | .symbol name => ¬Reserved name
  | .var _ => True
  | .neg operand => operand.Plain
  | .binary _ left right => left.Plain ∧ right.Plain

/-- Replacing symbols in the recorded value of a term gives its value for the replacements. -/
theorem Term.build_substitute {σ recorded normal : Bindings} (hσ : σ.Plain)
    (henv : Bindings.Agree σ recorded normal) {t : Term} (ht : t.Plain) {v w : Value}
    (hv : t.build recorded = .ok v) (hw : t.build normal = .ok w) : v.substitute σ = some w := by
  induction t generalizing v w with
  | word word =>
      cases hv
      cases hw
      rfl
  | symbol name =>
      rw [Term.build, Value.symbol] at hv hw
      split at hv
      · cases hv
      · next hname =>
          -- The symbol is not reserved, so it stays when symbols are replaced.
          rw [if_neg hname] at hw
          cases hv
          cases hw
          rw [substitute, hσ name ht]
          rfl
  | var x =>
      obtain ⟨hnone, -⟩ | ⟨v', w', hv', hw', hagree⟩ := henv.lookup x
      · rw [Term.build, hnone] at hv
        cases hv
      · rw [Term.build, hv'] at hv
        rw [Term.build, hw'] at hw
        cases hv
        cases hw
        exact hagree
  | neg operand ih =>
      obtain ⟨v₁, hv₁, hv⟩ := except_bind_ok.1 hv
      obtain ⟨w₁, hw₁, hw⟩ := except_bind_ok.1 hw
      cases hv
      cases hw
      exact substitute_negated (ih ht hv₁ hw₁)
  | binary op left right ihl ihr =>
      obtain ⟨v₁, hv₁, hv⟩ := except_bind_ok.1 hv
      obtain ⟨v₂, hv₂, hv⟩ := except_bind_ok.1 hv
      obtain ⟨w₁, hw₁, hw⟩ := except_bind_ok.1 hw
      obtain ⟨w₂, hw₂, hw⟩ := except_bind_ok.1 hw
      exact substitute_combined (ihl ht.1 hv₁ hw₁) (ihr ht.2 hv₂ hw₂) hv hw

end Value

namespace Coordinate

mutual
/-- The coordinate with the symbols in its values replaced. -/
def substitute (σ : Value.Bindings) : Coordinate → Option Coordinate
  | unbound => some unbound
  | bound value => (value.substitute σ).map bound
  | composite elements => (substituteAll σ elements).map composite

/-- The coordinates with the symbols in their values replaced. -/
def substituteAll (σ : Value.Bindings) : List Coordinate → Option (List Coordinate)
  | [] => some []
  | c :: cs => do
      let c ← substitute σ c
      let cs ← substituteAll σ cs
      return c :: cs
end

theorem substituteAll_cons {σ : Value.Bindings} {c c' : Coordinate} {cs cs' : List Coordinate}
    (hc : c.substitute σ = some c') (hcs : substituteAll σ cs = some cs') :
    substituteAll σ (c :: cs) = some (c' :: cs') := by
  rw [substituteAll, hc, hcs]
  rfl

/-- Replacing symbols in all coordinates of a list replaces them in each. -/
theorem substituteAll_getElem? {σ : Value.Bindings} {cs cs' : List Coordinate}
    (h : substituteAll σ cs = some cs') {i : Nat} {c c' : Coordinate} (hc : cs[i]? = some c)
    (hc' : cs'[i]? = some c') : c.substitute σ = some c' := by
  induction cs generalizing cs' i with
  | nil => cases hc
  | cons first rest ih =>
      obtain ⟨first', hfirst, h⟩ := Option.bind_eq_some_iff.1 h
      obtain ⟨rest', hrest, h⟩ := Option.bind_eq_some_iff.1 h
      cases h
      cases i with
      | zero =>
          cases hc
          cases hc'
          exact hfirst
      | succ i => exact ih hrest hc hc'

/-- Only a composite coordinate has elements. -/
theorem element_ok {c e : Coordinate} {i : Int} (h : c.element i = .ok e) :
    ∃ elements, ∃ position : Nat, c = composite elements ∧ i = position ∧
      elements[position]? = some e := by
  cases c with
  | unbound | bound _ => cases h
  | composite elements =>
      cases i with
      | negSucc _ => cases h
      | ofNat position =>
          rw [element] at h
          split at h
          · next heq =>
              cases h
              exact ⟨elements, position, rfl, rfl, heq⟩
          · cases h

/-- Looking up an element goes together with replacing symbols. -/
theorem element_substitute {σ : Value.Bindings} {c c' e e' : Coordinate} {i : Int}
    (h : c.substitute σ = some c') (he : c.element i = .ok e) (he' : c'.element i = .ok e') :
    e.substitute σ = some e' := by
  obtain ⟨elements, position, rfl, rfl, hposition⟩ := element_ok he
  obtain ⟨elements', position', rfl, heq, hposition'⟩ := element_ok he'
  obtain rfl : position = position' := Int.ofNat.inj heq
  obtain ⟨replaced, hreplaced, heq⟩ := Option.map_eq_some_iff.1 h
  cases heq
  exact substituteAll_getElem? hreplaced hposition hposition'

/-- Following a path of elements goes together with replacing symbols. -/
theorem path_substitute {σ : Value.Bindings} {path : List Int} {c c' e e' : Coordinate}
    (h : c.substitute σ = some c') (he : path.foldlM element c = .ok e)
    (he' : path.foldlM element c' = .ok e') : e.substitute σ = some e' := by
  induction path generalizing c c' with
  | nil =>
      cases he
      cases he'
      exact h
  | cons i path ih =>
      obtain ⟨d, hd, he⟩ := except_bind_ok.1 he
      obtain ⟨d', hd', he'⟩ := except_bind_ok.1 he'
      exact ih (element_substitute h hd hd') he he'

/-- Reading a value goes together with replacing symbols. -/
theorem value_substitute {σ : Value.Bindings} {c c' : Coordinate} {v w : Value}
    (h : c.substitute σ = some c') (hv : c.value = .ok v) (hw : c'.value = .ok w) :
    v.substitute σ = some w := by
  cases c with
  | bound u =>
      cases hv
      obtain ⟨u', hu, rfl⟩ := Option.map_eq_some_iff.1 h
      cases hw
      exact hu
  | unbound | composite _ => cases hv

mutual
/-- The term has no reserved symbol. -/
def Term.Plain : Term → Prop
  | .unbound => True
  | .bound value => value.Plain
  | .composite elements => Term.AllPlain elements
  | .argument _ => True

/-- The terms have no reserved symbols. -/
def Term.AllPlain : List Term → Prop
  | [] => True
  | term :: terms => term.Plain ∧ Term.AllPlain terms
end

section
variable {σ recorded normal : Value.Bindings} {args args' : Nat → Option Coordinate}

mutual
/-- Replacing symbols in the recorded coordinate of a term gives its coordinate for the
replacements. -/
theorem Term.build_substitute (hσ : σ.Plain) (henv : Value.Bindings.Agree σ recorded normal)
    (hargs : ∀ {i c c'}, args i = some c → args' i = some c' → c.substitute σ = some c') :
    ∀ {t : Term}, t.Plain → ∀ {c c' : Coordinate}, t.build recorded args = .ok c →
      t.build normal args' = .ok c' → c.substitute σ = some c'
  | .unbound, _, _, _, hc, hc' => by
      cases hc
      cases hc'
      rfl
  | .bound value, ht, _, _, hc, hc' => by
      obtain ⟨v, hv, hc⟩ := except_bind_ok.1 hc
      obtain ⟨w, hw, hc'⟩ := except_bind_ok.1 hc'
      cases hc
      cases hc'
      rw [substitute, Value.Term.build_substitute hσ henv ht hv hw]
      rfl
  | .composite elements, ht, _, _, hc, hc' => by
      obtain ⟨cs, hcs, hc⟩ := except_bind_ok.1 hc
      obtain ⟨cs', hcs', hc'⟩ := except_bind_ok.1 hc'
      cases hc
      cases hc'
      rw [substitute, Term.buildAll_substitute hσ henv hargs ht hcs hcs']
      rfl
  | .argument position, _, _, _, hc, hc' => by
      rw [Term.build] at hc hc'
      split at hc
      · split at hc'
        · cases hc
          cases hc'
          exact hargs ‹_› ‹_›
        · cases hc'
      · cases hc

/-- Replacing symbols in the recorded coordinates of terms gives their coordinates for the
replacements. -/
theorem Term.buildAll_substitute (hσ : σ.Plain) (henv : Value.Bindings.Agree σ recorded normal)
    (hargs : ∀ {i c c'}, args i = some c → args' i = some c' → c.substitute σ = some c') :
    ∀ {ts : List Term}, Term.AllPlain ts → ∀ {cs cs' : List Coordinate},
      Term.buildAll recorded args ts = .ok cs → Term.buildAll normal args' ts = .ok cs' →
      substituteAll σ cs = some cs'
  | [], _, _, _, hcs, hcs' => by
      cases hcs
      cases hcs'
      rfl
  | t :: ts, ht, _, _, hcs, hcs' => by
      obtain ⟨c, hc, hcs⟩ := except_bind_ok.1 hcs
      obtain ⟨cs, hrest, hcs⟩ := except_bind_ok.1 hcs
      obtain ⟨c', hc', hcs'⟩ := except_bind_ok.1 hcs'
      obtain ⟨cs', hrest', hcs'⟩ := except_bind_ok.1 hcs'
      cases hcs
      cases hcs'
      exact substituteAll_cons (Term.build_substitute hσ henv hargs ht.1 hc hc')
        (Term.buildAll_substitute hσ henv hargs ht.2 hrest hrest')
end

end

end Coordinate

/-! ## Arguments of steps -/

/-- Arguments with and without symbols, where replacing symbols turns the first into the second. -/
inductive Argument.Agrees (σ : Value.Bindings) : Argument → Argument → Prop where
  | coordinate {c c' : Coordinate} : c.substitute σ = some c' →
      Agrees σ (.coordinate c) (.coordinate c')
  | handle (name : Handle) : Agrees σ (.handle name) (.handle name)

/-- Lists of arguments that agree one by one. -/
def Argument.AllAgree (σ : Value.Bindings) : List Argument → List Argument → Prop :=
  List.Forall₂ (Argument.Agrees σ)

namespace Argument.AllAgree

variable {σ : Value.Bindings} {args args' : List Argument}

/-- Arguments at the same position agree. -/
theorem getElem? (h : AllAgree σ args args') {i : Nat} {a : Argument} (ha : args[i]? = some a) :
    ∃ a', args'[i]? = some a' ∧ a.Agrees σ a' := by
  induction h generalizing i with
  | nil => cases ha
  | cons hfirst _ ih =>
      cases i with
      | zero =>
          cases ha
          exact ⟨_, rfl, hfirst⟩
      | succ i => exact ih ha

/-- The handles are the same. -/
theorem inputsOf_eq (h : AllAgree σ args args') :
    StepDefinition.inputsOf args = StepDefinition.inputsOf args' := by
  unfold StepDefinition.inputsOf
  induction h with
  | nil => rfl
  | cons hfirst _ ih =>
      cases hfirst with
      | coordinate _ => exact ih
      | handle name => exact congrArg (name :: ·) ih

end Argument.AllAgree

namespace StepDefinition

/-- A fixed tag is what a term without reserved symbols says. -/
def Plain (d : StepDefinition) : Prop :=
  ∀ tag, d.tagSource = .literal tag →
    ∃ term : Coordinate.Term, term.Plain ∧ term.build [] (fun _ => none) = .ok tag

/-- Replacing symbols in the tag of a recorded invocation gives the tag for the replacements. -/
theorem resolveTag_substitute {d : StepDefinition} (hd : d.Plain) {σ : Value.Bindings}
    (hσ : σ.Plain) {args args' : List Argument} (h : Argument.AllAgree σ args args')
    {tag : Coordinate} (htag : d.resolveTag args = .ok tag) :
    ∃ tag', d.resolveTag args' = .ok tag' ∧ tag.substitute σ = some tag' := by
  cases hsource : d.tagSource with
  | literal literal =>
      rw [resolveTag, hsource] at htag ⊢
      cases htag
      obtain ⟨term, hterm, hbuild⟩ := hd _ hsource
      refine ⟨_, rfl, Coordinate.Term.build_substitute hσ .nil ?_ hterm hbuild hbuild⟩
      intro _ _ _ hargument
      cases hargument
  | parameter p =>
      rw [resolveTag, hsource] at htag ⊢
      dsimp only at htag ⊢
      split at htag
      · next heq =>
          cases htag
          obtain ⟨a', ha', hagree⟩ := h.getElem? heq
          cases hagree with
          | coordinate hsubstitute => exact ⟨_, by rw [ha'], hsubstitute⟩
      · cases htag
      · cases htag

end StepDefinition

end TileTrace
