import TileTrace.Expr
import TileTrace.Proofs.Tokens

/-!
# The grammar of expressions

`Reads` is Python's grammar of expressions, as far as expression texts need it.
There is one nonterminal for each strength, so that the strengths say what may
stand beside an operator. The grammar is ambiguous as a set of rules only in how
loose a phrase counts: `Reads.unique` says that tokens are read as one tree. The
proof runs a shift-reduce machine over the tokens. It keeps unfinished operators
on a stack, finishes those that bind at least as tight as the next operator, and
is deterministic. `Reads.readsTo` says that the machine reads every phrase of the
grammar as the grammar does.
-/

namespace TileTrace

mutual
/-- The tokens are a phrase of at least the given strength, and are read as the given tree. -/
inductive Reads : Strength → List Token → Expr → Prop where
  | number (n : Nat) : Reads .atom [.number n] (.constant n)
  | empty : Reads .atom [.word "None"] .empty
  | name (name : String) : name ≠ "None" → Reads .atom [.word name] (.reference name)
  | group (ts : List Token) (e : Expr) :
      Reads .sum ts e → Reads .atom (.opening :: (ts ++ [.closing])) e
  | unit : Reads .atom [.opening, .closing] (.tuple [])
  | tuple (ts : List Token) (es : List Expr) :
      ReadsList ts es → 2 ≤ es.length → Reads .atom (.opening :: (ts ++ [.closing])) (.tuple es)
  | tupleComma (ts : List Token) (es : List Expr) :
      ReadsList ts es → Reads .atom (.opening :: (ts ++ [.comma, .closing])) (.tuple es)
  | power (ls rs : List Token) (l r : Expr) :
      Reads .atom ls l → Reads .negation rs r →
      Reads .power (ls ++ .operator .pow :: rs) (.binary Operator.pow.symbol l r)
  | negation (ts : List Token) (e : Expr) :
      Reads .negation ts e → Reads .negation (.operator .sub :: ts) (.unary "-" e)
  | product (op : Operator) (ls rs : List Token) (l r : Expr) :
      op.strength = .product → Reads .product ls l → Reads .negation rs r →
      Reads .product (ls ++ .operator op :: rs) (.binary op.symbol l r)
  | sum (op : Operator) (ls rs : List Token) (l r : Expr) :
      op.strength = .sum → Reads .sum ls l → Reads .product rs r →
      Reads .sum (ls ++ .operator op :: rs) (.binary op.symbol l r)
  | looser (s s' : Strength) (ts : List Token) (e : Expr) :
      s ≤ s' → Reads s' ts e → Reads s ts e

/-- The tokens are phrases with commas between them, and are read as the given trees. -/
inductive ReadsList : List Token → List Expr → Prop where
  | one (ts : List Token) (e : Expr) : Reads .sum ts e → ReadsList ts [e]
  | cons (ts us : List Token) (e : Expr) (es : List Expr) :
      Reads .sum ts e → ReadsList us es → ReadsList (ts ++ .comma :: us) (e :: es)
end

/-! ## A machine that reads -/

/-- What is unfinished in front of an operand. -/
inductive Pending where
  /-- An open bracket with the elements before the operand. -/
  | bracket (elements : List Expr)
  | negation
  | operator (op : Operator) (left : Expr)

namespace Pending

/-- How tightly an unfinished operator holds its operand. A bracket does not hold it. -/
def strength : Pending → Strength
  | bracket _ => 0
  | negation => .negation
  | operator op _ => op.strength

/-- Finish an operator with its operand. -/
def finish (operand : Expr) : Pending → Expr
  | bracket _ => operand
  | negation => .unary "-" operand
  | operator op left => .binary op.symbol left operand

/-- Finish the operators that hold the operand at least as tightly as asked for. -/
def reduce (limit : Strength) : List Pending → Expr → List Pending × Expr
  | [], operand => ([], operand)
  | top :: stack, operand =>
      if limit ≤ top.strength then reduce limit stack (top.finish operand)
      else (top :: stack, operand)

end Pending

/-- How tightly an operator must hold the operand between it and this one to get it. The power is
the only operator that leaves its left operand to no one. -/
def Operator.limit : Operator → Strength
  | .pow => .atom
  | op => op.strength

/-- Read tokens, with unfinished operators in front of them and the operand that was read last, if
the tokens go on after an operand. -/
def readFrom : List Pending → Option Expr → List Token → Option Expr
  | stack, some operand, [] =>
      match Pending.reduce .sum stack operand with
      | ([], e) => some e
      | _ => none
  | stack, some operand, .operator op :: ts =>
      let (stack, left) := Pending.reduce op.limit stack operand
      readFrom (.operator op left :: stack) none ts
  | stack, some operand, .comma :: ts =>
      match Pending.reduce .sum stack operand with
      | (.bracket elements :: stack, e) => readFrom (.bracket (elements ++ [e]) :: stack) none ts
      | _ => none
  | stack, some operand, .closing :: ts =>
      match Pending.reduce .sum stack operand with
      | (.bracket [] :: stack, e) => readFrom stack (some e) ts
      | (.bracket elements :: stack, e) => readFrom stack (some (.tuple (elements ++ [e]))) ts
      | _ => none
  | stack, none, .number n :: ts => readFrom stack (some (.constant n)) ts
  | stack, none, .word name :: ts =>
      readFrom stack (some (if name = "None" then .empty else .reference name)) ts
  | stack, none, .opening :: ts => readFrom (.bracket [] :: stack) none ts
  | stack, none, .operator .sub :: ts => readFrom (.negation :: stack) none ts
  | .bracket elements :: stack, none, .closing :: ts =>
      readFrom stack (some (.tuple elements)) ts
  | _, _, _ => none

/-! ## The machine follows the grammar -/

namespace Pending

variable {stack : List Pending} {e : Expr} {s limit : Strength}

/-- The operators in front of a phrase hold it less tightly than the phrase holds together. This
matters only for phrases that begin with a phrase of their own strength. -/
def Fits (s : Strength) (stack : List Pending) : Prop :=
  ∀ top, stack.head? = some top → s ≤ .product → top.strength < s

theorem Fits.looser {s' : Strength} (h : Fits s stack) (hs : s ≤ s') : Fits s' stack :=
  fun top htop hproduct =>
    Nat.lt_of_lt_of_le (h top htop (Nat.le_trans hs hproduct)) hs

theorem Fits.of_product_lt (h : Strength.product < s) : Fits s stack :=
  fun _ _ hle => absurd hle (Nat.not_le_of_lt h)

theorem reduce_cons_of_le {top : Pending} (h : limit ≤ top.strength) :
    reduce limit (top :: stack) e = reduce limit stack (top.finish e) :=
  if_pos h

theorem reduce_cons_of_lt {top : Pending} (h : top.strength < limit) :
    reduce limit (top :: stack) e = (top :: stack, e) :=
  if_neg (Nat.not_le_of_lt h)

/-- An operand that the stack does not hold stays with it. -/
theorem Fits.reduce (h : Fits s stack) (hs : s ≤ .product) :
    Pending.reduce s stack e = (stack, e) := by
  cases stack with
  | nil => rfl
  | cons top stack => exact reduce_cons_of_lt (h top rfl hs)

/-- Nothing holds its operand as tightly as an atom holds together. -/
theorem reduce_atom (stack : List Pending) (e : Expr) : reduce .atom stack e = (stack, e) := by
  cases stack with
  | nil => rfl
  | cons top stack =>
      refine reduce_cons_of_lt ?_
      cases top with
      | bracket elements => exact Nat.zero_lt_succ _
      | negation =>
          have hnegation : Strength.negation < Strength.atom := by decide
          exact hnegation
      | operator op left =>
          have hop : op.strength < Strength.atom := by cases op <;> decide
          exact hop

/-- A bracket holds nothing. -/
theorem fits_bracket (elements : List Expr) (stack : List Pending) :
    Fits .sum (.bracket elements :: stack) := by
  rintro _ ⟨⟩ -
  exact Nat.zero_lt_one

theorem reduce_bracket {elements : List Expr} :
    reduce .sum (.bracket elements :: stack) e = (.bracket elements :: stack, e) :=
  (fits_bracket elements stack).reduce (by decide)

/-- A sum holds a product less tightly than the product holds together. -/
theorem fits_of_sum {op : Operator} (h : op.strength = .sum) (l : Expr) (stack : List Pending) :
    Fits .product (.operator op l :: stack) := by
  rintro _ ⟨⟩ -
  have hproduct : op.strength < Strength.product := by
    rw [h]
    decide
  exact hproduct

end Pending

open Pending

/-- Reading the tokens over the stack ends with an operand. It may leave operators unfinished,
but what follows a phrase of the given strength finishes them to the tree. -/
def ReadsTo (s : Strength) (stack : List Pending) (ts : List Token) (e : Expr) : Prop :=
  ∃ stack' operand,
    (∀ rest, readFrom stack none (ts ++ rest) = readFrom stack' (some operand) rest) ∧
      ∀ limit ≤ s, limit ≤ .negation ∨ .atom ≤ s →
        reduce limit stack' operand = reduce limit stack e

namespace ReadsTo

variable {s : Strength} {stack : List Pending} {ts ls rs : List Token} {e l r : Expr}

theorem whole (h : ∀ rest, readFrom stack none (ts ++ rest) = readFrom stack (some e) rest) :
    ReadsTo s stack ts e :=
  ⟨stack, e, h, fun _ _ _ => rfl⟩

theorem looser {s' : Strength} (h : ReadsTo s' stack ts e) (hs : s ≤ s') :
    ReadsTo s stack ts e := by
  obtain ⟨stack', operand, hrun, hreduce⟩ := h
  refine ⟨stack', operand, hrun, fun limit hle hlimit => ?_⟩
  exact hreduce limit (Nat.le_trans hle hs) (hlimit.imp_right fun h => Nat.le_trans h hs)

/-- A minus sign waits for its operand. -/
theorem negation (h : ReadsTo .negation (.negation :: stack) ts e) :
    ReadsTo .negation stack (.operator .sub :: ts) (.unary "-" e) := by
  obtain ⟨stack', operand, hrun, hreduce⟩ := h
  refine ⟨stack', operand, hrun, fun limit hle hlimit => ?_⟩
  rw [hreduce limit hle hlimit]
  exact reduce_cons_of_le hle

/-- A power takes its left operand at once and waits for the right one. -/
theorem power (hl : ReadsTo .atom stack ls l)
    (hr : ReadsTo .negation (.operator .pow l :: stack) rs r) :
    ReadsTo .power stack (ls ++ .operator .pow :: rs) (.binary Operator.pow.symbol l r) := by
  obtain ⟨stackl, operandl, hrunl, hreducel⟩ := hl
  obtain ⟨stackr, operandr, hrunr, hreducer⟩ := hr
  refine ⟨stackr, operandr, fun rest => ?_, fun limit hle hlimit => ?_⟩
  · have hleft := (hreducel .atom (Nat.le_refl _) (.inr (Nat.le_refl _))).trans
      (reduce_atom stack l)
    rw [List.append_assoc, List.cons_append, hrunl, readFrom, Operator.limit, hleft]
    exact hrunr rest
  · have hnegation : limit ≤ .negation := hlimit.resolve_right (by decide)
    rw [hreducer limit hnegation (.inl hnegation)]
    exact reduce_cons_of_le hle

/-- A sum or a product finishes its left operand and waits for the right one. -/
theorem binary {op : Operator} (hs : op.strength = s) (hproduct : s ≤ .product)
    (hfits : Fits s stack) (hl : ReadsTo s stack ls l)
    (hr : ReadsTo (s + 1) (.operator op l :: stack) rs r) :
    ReadsTo s stack (ls ++ .operator op :: rs) (.binary op.symbol l r) := by
  obtain ⟨stackl, operandl, hrunl, hreducel⟩ := hl
  obtain ⟨stackr, operandr, hrunr, hreducer⟩ := hr
  have hnegation : s ≤ Strength.negation := Nat.le_trans hproduct (by decide)
  have hop : op.limit = s := by
    subst hs
    cases op <;> first | rfl | exact absurd hproduct (by decide)
  refine ⟨stackr, operandr, fun rest => ?_, fun limit hle hlimit => ?_⟩
  · have hleft := hreducel s (Nat.le_refl _) (.inl hnegation)
    rw [hfits.reduce hproduct] at hleft
    rw [List.append_assoc, List.cons_append, hrunl, readFrom, hop, hleft]
    exact hrunr rest
  · rw [hreducer limit (Nat.le_succ_of_le hle) (.inl (Nat.le_trans hle hnegation))]
    have hop : limit ≤ op.strength := hs ▸ hle
    exact reduce_cons_of_le hop

/-- Brackets around a phrase read as the phrase. -/
theorem group (h : ReadsTo .sum (.bracket [] :: stack) ts e) :
    ReadsTo s stack (.opening :: (ts ++ [.closing])) e := by
  obtain ⟨stack', operand, hrun, hreduce⟩ := h
  refine whole fun rest => ?_
  have hbracket := hreduce .sum (Nat.le_refl _) (.inl (by decide))
  rw [reduce_bracket] at hbracket
  rw [List.cons_append, readFrom, List.append_assoc, hrun, List.singleton_append, readFrom,
    hbracket]

end ReadsTo

/-- Reading the tokens after a bracket with some elements ends with the last of the trees, the
others are in the bracket. -/
def ReadsElements (elements : List Expr) (stack : List Pending) (ts : List Token)
    (es : List Expr) : Prop :=
  ∃ front last stack' operand, es = front ++ [last] ∧
    (∀ rest, readFrom (.bracket elements :: stack) none (ts ++ rest) =
      readFrom stack' (some operand) rest) ∧
    reduce .sum stack' operand = (.bracket (elements ++ front) :: stack, last)

namespace ReadsElements

variable {elements es : List Expr} {stack : List Pending} {ts us : List Token} {e : Expr}

theorem one (h : ReadsTo .sum (.bracket elements :: stack) ts e) :
    ReadsElements elements stack ts [e] := by
  obtain ⟨stack', operand, hrun, hreduce⟩ := h
  have hbracket := hreduce .sum (Nat.le_refl _) (.inl (by decide))
  rw [reduce_bracket] at hbracket
  exact ⟨[], e, stack', operand, rfl, hrun, by rw [hbracket, List.append_nil]⟩

theorem cons (h : ReadsTo .sum (.bracket elements :: stack) ts e)
    (hes : ReadsElements (elements ++ [e]) stack us es) :
    ReadsElements elements stack (ts ++ .comma :: us) (e :: es) := by
  obtain ⟨stacke, operande, hrune, hreducee⟩ := h
  obtain ⟨front, last, stack', operand, rfl, hrun, hreduce⟩ := hes
  have hbracket := hreducee .sum (Nat.le_refl _) (.inl (by decide))
  rw [reduce_bracket] at hbracket
  refine ⟨e :: front, last, stack', operand, rfl, fun rest => ?_, ?_⟩
  · rw [List.append_assoc, List.cons_append, hrune, readFrom, hbracket]
    exact hrun rest
  · rw [hreduce, List.append_assoc]
    rfl

theorem tuple (h : ReadsElements [] stack ts es) (htwo : 2 ≤ es.length) (s : Strength) :
    ReadsTo s stack (.opening :: (ts ++ [.closing])) (.tuple es) := by
  obtain ⟨front, last, stack', operand, rfl, hrun, hreduce⟩ := h
  obtain ⟨first, front, rfl⟩ := List.exists_cons_of_ne_nil (l := front) (by
    rintro rfl
    simp at htwo)
  refine .whole fun rest => ?_
  rw [List.cons_append, readFrom, List.append_assoc, hrun, List.singleton_append, readFrom, hreduce]
  rfl

theorem tupleComma (h : ReadsElements [] stack ts es) (s : Strength) :
    ReadsTo s stack (.opening :: (ts ++ [.comma, .closing])) (.tuple es) := by
  obtain ⟨front, last, stack', operand, rfl, hrun, hreduce⟩ := h
  refine .whole fun rest => ?_
  rw [List.cons_append, readFrom, List.append_assoc, hrun]
  simp only [List.cons_append, List.nil_append]
  rw [readFrom, hreduce]
  rfl

end ReadsElements

mutual
/-- The machine reads a phrase as the grammar does. -/
theorem Reads.readsTo {s : Strength} {ts : List Token} {e : Expr} (h : Reads s ts e) :
    ∀ stack, Fits s stack → ReadsTo s stack ts e := by
  intro stack hfits
  match h with
  | .number n => exact .whole fun _ => rfl
  | .empty => exact .whole fun _ => rfl
  | .name name hname => exact .whole fun _ => by rw [List.singleton_append, readFrom, if_neg hname]
  | .group ts e h => exact .group (Reads.readsTo h _ (fits_bracket _ _))
  | .unit => exact .whole fun _ => rfl
  | .tuple ts es h htwo => exact (ReadsList.readsElements h [] stack).tuple htwo _
  | .tupleComma ts es h => exact (ReadsList.readsElements h [] stack).tupleComma _
  | .power ls rs l r hl hr =>
      exact .power (Reads.readsTo hl _ (.of_product_lt (by decide)))
        (Reads.readsTo hr _ (.of_product_lt (by decide)))
  | .negation ts e h => exact .negation (Reads.readsTo h _ (.of_product_lt (by decide)))
  | .product op ls rs l r hop hl hr =>
      exact .binary hop (by decide) hfits (Reads.readsTo hl _ hfits)
        (Reads.readsTo hr _ (.of_product_lt (by decide)))
  | .sum op ls rs l r hop hl hr =>
      exact .binary hop (by decide) hfits (Reads.readsTo hl _ hfits)
        (Reads.readsTo hr _ (fits_of_sum hop l stack))
  | .looser s s' ts e hs h => exact (Reads.readsTo h _ (hfits.looser hs)).looser hs

/-- The machine reads a list of phrases as the grammar does. -/
theorem ReadsList.readsElements {ts : List Token} {es : List Expr} (h : ReadsList ts es) :
    ∀ elements stack, ReadsElements elements stack ts es := by
  intro elements stack
  match h with
  | .one ts e h => exact .one (Reads.readsTo h _ (fits_bracket _ _))
  | .cons ts us e es h hes =>
      exact .cons (Reads.readsTo h _ (fits_bracket _ _)) (ReadsList.readsElements hes _ _)
end

/-- The tree that tokens are read as is what the machine reads. -/
theorem Reads.readFrom_eq {ts : List Token} {e : Expr} (h : Reads .sum ts e) :
    readFrom [] none ts = some e := by
  obtain ⟨stack, operand, hrun, hreduce⟩ := h.readsTo [] nofun
  have hwhole := hrun []
  rw [List.append_nil] at hwhole
  rw [hwhole, readFrom, hreduce .sum (Nat.le_refl _) (.inl (by decide))]
  rfl

/-- Tokens are read as one tree at most. -/
theorem Reads.unique {ts : List Token} {e e' : Expr} (h : Reads .sum ts e)
    (h' : Reads .sum ts e') : e = e' :=
  Option.some.inj (h.readFrom_eq.symm.trans h'.readFrom_eq)

/-- The text is read as the tree. -/
def ReadsText (text : String) (e : Expr) : Prop :=
  ∃ ts, lex text.toList = some ts ∧ Reads .sum ts e

/-- A text is read as one tree at most. -/
theorem ReadsText.unique {text : String} {e e' : Expr} (h : ReadsText text e)
    (h' : ReadsText text e') : e = e' := by
  obtain ⟨ts, hlex, hreads⟩ := h
  obtain ⟨ts', hlex', hreads'⟩ := h'
  obtain rfl : ts = ts' := Option.some.inj (hlex.symm.trans hlex')
  exact hreads.unique hreads'

end TileTrace
