import TileTrace.Decimal
import TileTrace.Operator
import TileTrace.Options.Text

/-!
# Tokens of expression texts

How a reader of Python splits an expression text into tokens. Blanks separate
tokens. A name or a numeral reaches as far as possible, and so do the operators
`**` and `//`. Names are read as they are written, and every character beyond
ASCII counts as a letter. `Lexes` and `LexesAny` are how texts that are put
together are lexed: `LexesAny` says that a text is lexed like this whatever comes
after it, and `Lexes` that it is unless a name goes on there.
-/

namespace TileTrace

/-- The tokens of expression texts. -/
inductive Token where
  | number (n : Nat)
  | word (name : String)
  | operator (op : Operator)
  | opening
  | closing
  | comma
  deriving DecidableEq, Repr

namespace Token

/-- Can a name start with this character? -/
def isNameStart (c : Char) : Bool :=
  c.isAlpha || c = '_' || 128 ≤ c.toNat

/-- Can this character stand in a name? -/
def isNameChar (c : Char) : Bool :=
  isNameStart c || c.isDigit

/-- Is the text a name? -/
def isName (text : String) : Bool :=
  match text.toList with
  | [] => false
  | c :: rest => isNameStart c && rest.all isNameChar

/-- The number of a decimal numeral. No numeral but zero starts with a zero. -/
def numeral? (digits : List Char) : Option Nat :=
  if digits.all Char.isDigit && (digits.head? != some '0' || digits.all (· = '0')) then
    some (Nat.ofDigitChars 10 digits 0)
  else none

/-- The token that is neither a name nor a numeral at the start of a text. -/
def mark? : List Char → Option (Token × List Char)
  | '(' :: rest => some (opening, rest)
  | ')' :: rest => some (closing, rest)
  | ',' :: rest => some (comma, rest)
  | '+' :: rest => some (operator .add, rest)
  | '-' :: rest => some (operator .sub, rest)
  | '%' :: rest => some (operator .mod, rest)
  | '*' :: '*' :: rest => some (operator .pow, rest)
  | '*' :: rest => some (operator .mul, rest)
  | '/' :: '/' :: rest => some (operator .floorDiv, rest)
  | _ => none

/-- The token at the start of a text, and the text after it. -/
def next? (c : Char) (rest : List Char) : Option (Token × List Char) :=
  if isNameChar c then
    if isNameStart c then
      some (word (String.ofList (c :: rest.takeWhile isNameChar)), rest.dropWhile isNameChar)
    else (numeral? (c :: rest.takeWhile isNameChar)).map (number ·, rest.dropWhile isNameChar)
  else mark? (c :: rest)

theorem length_mark?_le {text after : List Char} {token : Token}
    (h : mark? text = some (token, after)) : after.length < text.length := by
  unfold mark? at h
  split at h <;> cases h <;> simp only [List.length_cons] <;> omega

/-- The text after the first token is shorter. -/
theorem length_next?_le {c : Char} {rest after : List Char} {token : Token}
    (h : next? c rest = some (token, after)) : after.length ≤ rest.length := by
  have hdrop := Options.length_dropWhile_le isNameChar rest
  unfold next? at h
  split at h
  · split at h
    · cases h
      exact hdrop
    · obtain ⟨n, -, heq⟩ := Option.map_eq_some_iff.1 h
      cases heq
      exact hdrop
  · exact Nat.le_of_lt_succ (length_mark?_le h)

end Token

open Token

/-- The tokens of a text, if it consists of tokens and blanks. -/
def lex (text : List Char) : Option (List Token) :=
  match text with
  | [] => some []
  | c :: rest =>
      if c = ' ' then lex rest
      else match _ : next? c rest with
        | none => none
        | some (token, after) => (lex after).map (token :: ·)
termination_by text.length
decreasing_by
  · simp
  · have := length_next?_le ‹_›
    simp
    omega

theorem lex_nil : lex [] = some [] := by
  rw [lex]

theorem lex_blank (rest : List Char) : lex (' ' :: rest) = lex rest := by
  rw [lex]
  simp

/-- A text that starts with a token is lexed into it and the tokens of the rest. -/
theorem lex_cons {c : Char} {rest after : List Char} {token : Token} (hblank : c ≠ ' ')
    (h : next? c rest = some (token, after)) :
    lex (c :: rest) = (lex after).map (token :: ·) := by
  rw [lex]
  split
  · contradiction
  · split
    · next heq => simp [h] at heq
    · next heq =>
      rw [h] at heq
      cases heq
      rfl

/-! ## Texts that are put together -/

/-- A text does not go on with a name. -/
def Ends (rest : List Char) : Prop :=
  ∀ c, rest.head? = some c → isNameChar c = false

/-- A text is lexed into the tokens, unless a name goes on after it. -/
def Lexes (text : List Char) (tokens : List Token) : Prop :=
  ∀ rest, Ends rest → lex (text ++ rest) = (lex rest).map (tokens ++ ·)

/-- A text is lexed into the tokens, whatever comes after it. -/
def LexesAny (text : List Char) (tokens : List Token) : Prop :=
  ∀ rest, lex (text ++ rest) = (lex rest).map (tokens ++ ·)

variable {a b : List Char} {ts us : List Token}

theorem Ends.nil : Ends [] := nofun

theorem LexesAny.lexes (h : LexesAny a ts) : Lexes a ts :=
  fun rest _ => h rest

theorem LexesAny.append (h : LexesAny a ts) (h' : LexesAny b us) :
    LexesAny (a ++ b) (ts ++ us) := by
  intro rest
  rw [List.append_assoc, h, h', Option.map_map]
  simp [Function.comp_def]

theorem LexesAny.append_lexes (h : LexesAny a ts) (h' : Lexes b us) :
    Lexes (a ++ b) (ts ++ us) := by
  intro rest hrest
  rw [List.append_assoc, h, h' rest hrest, Option.map_map]
  simp [Function.comp_def]

/-- A text ends where another one begins with something else than a name. -/
theorem Lexes.append {c : Char} (h : Lexes a ts) (h' : LexesAny (c :: b) us)
    (hc : isNameChar c = false) : LexesAny (a ++ c :: b) (ts ++ us) := by
  intro rest
  have hends : Ends (c :: b ++ rest) := by
    rintro _ ⟨⟩
    exact hc
  rw [List.append_assoc, h _ hends, h', Option.map_map]
  simp [Function.comp_def]

/-- The tokens of a whole text. -/
theorem Lexes.lex_eq (h : Lexes a ts) : lex a = some ts := by
  have hwhole := h [] .nil
  rw [List.append_nil, lex_nil] at hwhole
  simpa using hwhole

theorem LexesAny.of_mark {c : Char} {text : List Char} {token : Token} (hblank : c ≠ ' ')
    (hname : isNameChar c = false)
    (h : ∀ rest, mark? (c :: (text ++ rest)) = some (token, rest)) :
    LexesAny (c :: text) [token] := by
  intro rest
  have hnext : next? c (text ++ rest) = some (token, rest) := by
    rw [next?, hname]
    exact h rest
  exact lex_cons hblank hnext

theorem lexesAny_opening : LexesAny ['('] [.opening] :=
  .of_mark (by decide) (by decide) fun _ => rfl

theorem lexesAny_closing : LexesAny [')'] [.closing] :=
  .of_mark (by decide) (by decide) fun _ => rfl

theorem lexesAny_comma : LexesAny [','] [.comma] :=
  .of_mark (by decide) (by decide) fun _ => rfl

theorem lexesAny_minus : LexesAny ['-'] [.operator .sub] :=
  .of_mark (by decide) (by decide) fun _ => rfl

theorem lexesAny_blank : LexesAny [' '] [] := by
  intro rest
  rw [List.singleton_append, lex_blank]
  simp

/-- A comma between the elements of a tuple. -/
theorem lexesAny_separator : LexesAny [',', ' '] [.comma] :=
  lexesAny_comma.append lexesAny_blank

/-- An operator between blanks. -/
theorem lexesAny_operator (op : Operator) :
    LexesAny (' ' :: (op.symbol.toList ++ [' '])) [.operator op] := by
  intro rest
  obtain ⟨c, text, hsymbol, hblank, hname⟩ : ∃ c text, op.symbol.toList = c :: text ∧ c ≠ ' ' ∧
      isNameChar c = false := by
    cases op <;> exact ⟨_, _, rfl, by decide, by decide⟩
  have hmark : mark? (op.symbol.toList ++ ' ' :: rest) = some (.operator op, ' ' :: rest) := by
    cases op <;> rfl
  have hnext : next? c (text ++ ' ' :: rest) = some (.operator op, ' ' :: rest) := by
    rw [next?, hname, ← List.cons_append, ← hsymbol]
    exact hmark
  rw [hsymbol, List.cons_append, lex_blank, List.append_assoc, List.cons_append,
    List.singleton_append, lex_cons hblank hnext, lex_blank]
  rfl

/-- A name is one token. -/
theorem lexes_name {name : String} (h : isName name = true) : Lexes name.toList [.word name] := by
  intro rest hrest
  unfold isName at h
  split at h
  · cases h
  · next c text htext =>
      rw [Bool.and_eq_true, List.all_eq_true] at h
      obtain ⟨hstart, hall⟩ := h
      obtain ⟨htake, hdrop⟩ := span_append hall hrest
      have hblank : c ≠ ' ' := by
        rintro rfl
        exact absurd hstart (by decide)
      have hnext : next? c (text ++ rest) = some (.word name, rest) := by
        rw [next?, isNameChar, hstart, htake, hdrop, ← htext, String.ofList_toList]
        rfl
      rw [htext, List.cons_append, lex_cons hblank hnext]
      rfl

/-- No digit can start a name. -/
theorem isNameStart_of_isDigit {c : Char} (h : c.isDigit = true) : isNameStart c = false := by
  have hsmall : c.toNat < 58 := by
    simp only [Char.isDigit, Bool.and_eq_true, decide_eq_true_eq, UInt32.le_iff_toNat_le] at h
    exact Nat.lt_succ_of_le h.2
  have hall : ∀ n < 58, (Char.ofNat n).isDigit = true → isNameStart (Char.ofNat n) = false := by
    decide
  have hchar := hall c.toNat hsmall
  rw [Char.ofNat_toNat] at hchar
  exact hchar h

/-- Only zero is written with a zero in front. -/
theorem eq_zero_of_head_toDigits {n : Nat} (h : (Nat.toDigits 10 n).head? = some '0') : n = 0 := by
  induction n using Nat.strongRecOn with
  | ind n ih =>
      by_cases hsmall : n < 10
      · rw [Nat.toDigits_of_lt_base hsmall] at h
        have hzero : ∀ m < 10, Nat.digitChar m = '0' → m = 0 := by decide
        exact hzero n hsmall (by simpa using h)
      · -- The first digit is that of the number without its last digit.
        obtain ⟨c, digits, hdigits⟩ :=
          List.exists_cons_of_ne_nil (Nat.toDigits_ne_nil (n := n / 10) (b := 10))
        rw [Nat.toDigits_of_base_le (by decide) (by omega), hdigits] at h
        have := ih (n / 10) (by omega) (by rw [hdigits]; exact h)
        omega

/-- A decimal numeral is read as its number. -/
theorem numeral?_toDigits (n : Nat) : numeral? (Nat.toDigits 10 n) = some n := by
  have hdigits : (Nat.toDigits 10 n).all Char.isDigit = true := by
    rw [List.all_eq_true]
    exact fun c hc => Nat.isDigit_of_mem_toDigits (by decide) (by decide) hc
  have hzero : ((Nat.toDigits 10 n).head? != some '0' ||
      (Nat.toDigits 10 n).all (· = '0')) = true := by
    by_cases hhead : (Nat.toDigits 10 n).head? = some '0'
    · rw [eq_zero_of_head_toDigits hhead]
      decide
    · simp [hhead]
  rw [numeral?, hdigits, hzero, Nat.ofDigitChars_ten_toDigits]
  rfl

/-- A numeral is one token. -/
theorem lexes_number (n : Nat) : Lexes (Decimal.ofNat n).toList [.number n] := by
  intro rest hrest
  have htext : (Decimal.ofNat n).toList = Nat.toDigits 10 n := by
    rw [Decimal.ofNat, String.toList_ofList]
  obtain ⟨c, text, hdigits⟩ := List.exists_cons_of_ne_nil (Nat.toDigits_ne_nil (n := n) (b := 10))
  have hall : ∀ d ∈ c :: text, d.isDigit = true := by
    intro d hd
    rw [← hdigits] at hd
    exact Nat.isDigit_of_mem_toDigits (by decide) (by decide) hd
  have hname : ∀ d ∈ text, isNameChar d = true := by
    intro d hd
    rw [isNameChar, hall d (List.mem_cons_of_mem c hd), Bool.or_true]
  obtain ⟨htake, hdrop⟩ := span_append hname hrest
  have hc := hall c List.mem_cons_self
  have hblank : c ≠ ' ' := by
    rintro rfl
    exact absurd hc (by decide)
  have hnext : next? c (text ++ rest) = some (.number n, rest) := by
    rw [next?, isNameChar, hc, Bool.or_true, isNameStart_of_isDigit hc, htake, hdrop, ← hdigits,
      numeral?_toDigits]
    rfl
  rw [htext, hdigits, List.cons_append, lex_cons hblank hnext]
  rfl

end TileTrace
