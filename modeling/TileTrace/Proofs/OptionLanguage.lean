import Mathlib.Data.List.TakeWhile
import TileTrace.Proofs.OptionItems

/-!
# The language of option texts

Reading an option text goes in rounds. Each round reads the item that the text
begins with, and it fails if there is none. So a text is read to its end exactly
if it is a list of items, every item enables its option, and as each round takes
characters off, there are no more rounds than characters.
-/

namespace TileTrace.Options

/-! ## Parts of an item -/

/-- What follows the name of an item is no part of the name. -/
theorem Item.IsBehind.head?_not_isNameChar {item : Item} {rest after : List Char}
    (h : item.IsBehind rest after) (c : Char) (hc : rest.head? = some c) :
    isNameChar c = false := by
  rcases h with ⟨rfl, -⟩ | rfl
  · cases item with
    | bare name => cases hc
    | parenthesized name inside => cases hc; rfl
  · cases item with
    | bare name => cases hc; rfl
    | parenthesized name inside => cases hc; rfl

/-- The name of an item is read as far as it goes. -/
theorem span_name {ι : Type} {family : OptionFamily ι} (hplain : family.IsPlain) {item : Item}
    (hitem : item.IsOf family) {rest after : List Char} (h : item.IsBehind rest after) :
    (item.name.toList ++ rest).takeWhile isNameChar = item.name.toList ∧
      (item.name.toList ++ rest).dropWhile isNameChar = rest := by
  obtain ⟨-, hcomma, hopen⟩ := hitem.plain hplain
  refine span_append ?_ h.head?_not_isNameChar
  intro c hc
  have hne : c ≠ ',' ∧ c ≠ '(' := ⟨fun h => hcomma (h ▸ hc), fun h => hopen (h ▸ hc)⟩
  simpa [isNameChar] using hne

/-- A text in parentheses is read up to the first closing one. -/
theorem span_inside {inside : List Char} (h : ')' ∉ inside) (behind : List Char) :
    (inside ++ ')' :: behind).takeWhile isArgumentChar = inside ∧
      (inside ++ ')' :: behind).dropWhile isArgumentChar = ')' :: behind := by
  refine span_append (fun c hc => decide_eq_true fun hclose => h (hclose ▸ hc)) ?_
  intro c hc
  cases hc
  rfl

/-- A text with a closing parenthesis ends an item. -/
theorem exists_parenthesized (name : String) {text behind : List Char} {c : Char}
    (h : text.dropWhile isArgumentChar = c :: behind) :
    ∃ item : Item, item.name = name ∧ item.IsClosed ∧ argumentList text = item.args ∧
      '(' :: text = item.behindName ++ behind := by
  have hclose := List.head?_dropWhile_not isArgumentChar text
  rw [h] at hclose
  have hc : c = ')' := by simpa [isArgumentChar] using hclose
  refine ⟨.parenthesized name (String.ofList (text.takeWhile isArgumentChar)), rfl, ?_, ?_, ?_⟩
  · intro hmem
    rw [String.toList_ofList] at hmem
    simpa [isArgumentChar] using List.mem_takeWhile_imp hmem
  · rw [argumentList, Item.args, String.toList_ofList]
  · rw [Item.behindName, String.toList_ofList, List.append_assoc, List.cons_append,
      List.singleton_append, ← hc, ← h, List.takeWhile_append_dropWhile]

/-- Reading on behind a name succeeds exactly if an item with that name goes on so. -/
theorem afterName_eq_ok {source name : String} {rest after : List Char} {args : List String}
    (hrest : ∀ c, rest.head? = some c → isNameChar c = false) :
    afterName source name rest = .ok (args, after) ↔
      ∃ item : Item, item.name = name ∧ item.IsClosed ∧ args = item.args ∧
        item.IsBehind rest after := by
  constructor
  · intro h
    unfold afterName at h
    split at h
    · cases h
      exact ⟨.bare name, rfl, trivial, rfl, .inl ⟨rfl, rfl⟩⟩
    · cases h
      exact ⟨.bare name, rfl, trivial, rfl, .inr rfl⟩
    · next c inside hcomma =>
        -- The name has ended and not with a comma, so its arguments open here.
        have hopen : c = '(' := by
          have hname := hrest c rfl
          simp only [isNameChar, Bool.and_eq_false_iff, decide_eq_false_iff_not,
            Decidable.not_not] at hname
          exact hname.resolve_left hcomma
        split at h
        · cases h
        · next hdrop =>
            cases h
            obtain ⟨item, hname, hclosed, hargs, htext⟩ := exists_parenthesized name hdrop
            refine ⟨item, hname, hclosed, hargs, .inl ⟨?_, rfl⟩⟩
            rw [hopen, htext, List.append_nil]
        · next hdrop =>
            cases h
            obtain ⟨item, hname, hclosed, hargs, htext⟩ := exists_parenthesized name hdrop
            exact ⟨item, hname, hclosed, hargs, .inr (by rw [hopen, htext])⟩
        · cases h
  · rintro ⟨item, rfl, hclosed, rfl, h⟩
    cases item with
    | bare name =>
        obtain ⟨rfl, rfl⟩ | rfl := h
        · rfl
        · rfl
    | parenthesized name inside =>
        obtain ⟨rfl, rfl⟩ | rfl := h
        · have hspan := span_inside hclosed []
          simp [Item.behindName, afterName, argumentList, hspan, Item.args]
        · have hspan := span_inside hclosed (',' :: after)
          simp [Item.behindName, afterName, argumentList, hspan, Item.args]

/-! ## One round -/

variable {ι : Type} [DecidableEq ι] {family : OptionFamily ι}

/-- One round of reading an option text: the options with the first item, and the text after it. -/
def round (family : OptionFamily ι) (options : Options ι) (text : List Char) :
    Except Error (Options ι × List Char) :=
  let name := String.ofList (text.takeWhile isNameChar)
  let source := Environment.variableName family.setting
  match family.named? name with
  | .none => .error (.unknownOption source name ((family.names.map (·.1)).mergeSort (· ≤ ·)))
  | some option =>
      match afterName source name (text.dropWhile isNameChar) with
      | .error e => .error e
      | .ok (args, after) => .ok (options.set option args, after)

theorem readInto_nil (family : OptionFamily ι) (options : Options ι) :
    readInto family options [] = .ok options := by
  rw [readInto, dif_pos rfl]

/-- While there is text, reading it is a round and reading what is left. -/
theorem readInto_of_ne_nil (family : OptionFamily ι) (options : Options ι) {text : List Char}
    (h : text ≠ []) : readInto family options text =
      (round family options text).bind fun (options, after) => readInto family options after := by
  rw [readInto, dif_neg h, round]
  simp only
  cases family.named? (String.ofList (text.takeWhile isNameChar)) with
  | none => rfl
  | some option =>
      simp only
      split
      · next hafter => rw [hafter]; rfl
      · next hafter => rw [hafter]; rfl

/-- What a round that succeeds has read. -/
theorem exists_of_round {options result : Options ι} {text after : List Char}
    (h : round family options text = .ok (result, after)) : ∃ option args,
      family.named? (String.ofList (text.takeWhile isNameChar)) = some option ∧
      afterName (Environment.variableName family.setting)
        (String.ofList (text.takeWhile isNameChar)) (text.dropWhile isNameChar) =
          .ok (args, after) ∧
      result = options.set option args := by
  unfold round at h
  simp only at h
  split at h
  · cases h
  · next option hoption =>
      split at h
      · cases h
      · next args _ hafter =>
          cases h
          exact ⟨option, args, hoption, hafter, rfl⟩

/-- A round succeeds exactly if the text begins with an item, and it enables the option of it. -/
theorem round_eq_ok (hplain : family.IsPlain) {options result : Options ι}
    {text after : List Char} : round family options text = .ok (result, after) ↔
      ∃ (item : Item) (option : ι), item.IsOf family ∧ family.named? item.name = some option ∧
        item.Begins text after ∧ result = options.set option item.args := by
  constructor
  · intro h
    obtain ⟨option, args, hoption, hafter, rfl⟩ := exists_of_round h
    have hrest : ∀ c, (text.dropWhile isNameChar).head? = some c → isNameChar c = false := by
      intro c hc
      have hnot := List.head?_dropWhile_not isNameChar text
      rwa [hc] at hnot
    obtain ⟨item, hname, hclosed, rfl, hbehind⟩ := (afterName_eq_ok hrest).1 hafter
    rw [← hname] at hoption
    refine ⟨item, option, ⟨OptionFamily.exists_named?_iff.1 ⟨option, hoption⟩, hclosed⟩, hoption,
      ⟨_, ?_, hbehind⟩, rfl⟩
    rw [hname, String.toList_ofList, List.takeWhile_append_dropWhile]
  · rintro ⟨item, option, hitem, hoption, ⟨rest, rfl, hbehind⟩, rfl⟩
    obtain ⟨htake, hdrop⟩ := span_name hplain hitem hbehind
    have hafter : afterName (Environment.variableName family.setting) item.name rest =
        .ok (item.args, after) :=
      (afterName_eq_ok hbehind.head?_not_isNameChar).2 ⟨item, rfl, hitem.closed, rfl, hbehind⟩
    simp [round, htake, hdrop, hoption, hafter]

/-- A round leaves less to read. -/
theorem length_lt_of_round {options result : Options ι} {text after : List Char} (hne : text ≠ [])
    (h : round family options text = .ok (result, after)) : after.length < text.length := by
  obtain ⟨option, args, -, hafter, -⟩ := exists_of_round h
  have hle := length_afterName_le hafter
  have hdrop := length_dropWhile_le isNameChar text
  have hpos := List.length_pos_iff.2 hne
  omega

/-! ## All rounds -/

/-- Read an option text in at most so many rounds. There is no result if some text is left then. -/
def readRounds (family : OptionFamily ι) :
    Nat → Options ι → List Char → Option (Except Error (Options ι))
  | 0, options, text => if text = [] then some (.ok options) else .none
  | rounds + 1, options, text =>
      if text = [] then some (.ok options)
      else match round family options text with
        | .error e => some (.error e)
        | .ok (options, after) => readRounds family rounds options after

/-- Reading ends after as many rounds as the text has characters, if not before. -/
theorem readRounds_eq {rounds : Nat} (options : Options ι) {text : List Char}
    (h : text.length ≤ rounds) :
    readRounds family rounds options text = some (readInto family options text) := by
  induction rounds generalizing options text with
  | zero =>
      obtain rfl := List.length_eq_zero_iff.1 (Nat.le_zero.1 h)
      rw [readRounds, if_pos rfl, readInto_nil]
  | succ rounds ih =>
      by_cases hne : text = []
      · rw [hne, readRounds, if_pos rfl, readInto_nil]
      · rw [readRounds, if_neg hne, readInto_of_ne_nil family options hne]
        cases hround : round family options text with
        | error e => rfl
        | ok next =>
            have hlt := length_lt_of_round hne hround
            exact ih next.1 (by omega)

/-- A list of items is read to its end. -/
theorem readInto_of_isListOf (hplain : family.IsPlain) {items : List Item} {text : List Char}
    (h : IsListOf family items text) (options : Options ι) :
    ∃ result, readInto family options text = .ok result ∧
      Enables family options items result := by
  obtain ⟨hitems, hlists⟩ := h
  induction items generalizing text options with
  | nil =>
      obtain ⟨-, rfl⟩ | ⟨hne, -⟩ := hlists
      · exact ⟨options, readInto_nil family options, enables_nil.2 rfl⟩
      · exact absurd rfl hne
  | cons item items ih =>
      obtain ⟨hitem, hitems⟩ := List.forall_mem_cons.1 hitems
      obtain ⟨after, hbegins, hafter⟩ := hlists.uncons
      obtain ⟨option, hoption⟩ := OptionFamily.exists_named?_iff.2 hitem.available
      obtain ⟨result, hread, henables⟩ := ih (options.set option item.args) hitems hafter
      have hround : round family options text = .ok (options.set option item.args, after) :=
        (round_eq_ok hplain).2 ⟨item, option, hitem, hoption, hbegins, rfl⟩
      refine ⟨result, ?_, (enables_cons hoption).2 henables⟩
      rw [readInto_of_ne_nil family options (hbegins.ne_nil hplain hitem), hround]
      exact hread

/-- A text that is read to its end is a list of items. -/
theorem isListOf_of_readInto (hplain : family.IsPlain) {options result : Options ι}
    {text : List Char} (h : readInto family options text = .ok result) :
    ∃ items, IsListOf family items text ∧ Enables family options items result := by
  -- The induction is on the length, because a round takes several characters off.
  induction hlength : text.length using Nat.strong_induction_on generalizing options text with
  | _ length ih =>
      by_cases hne : text = []
      · subst hne
        rw [readInto_nil] at h
        cases h
        exact ⟨[], ⟨by simp, .inl ⟨rfl, rfl⟩⟩, enables_nil.2 rfl⟩
      · rw [readInto_of_ne_nil family options hne] at h
        cases hround : round family options text with
        | error e =>
            rw [hround] at h
            cases h
        | ok next =>
            obtain ⟨options', after⟩ := next
            rw [hround] at h
            have hlt := length_lt_of_round hne hround
            obtain ⟨items, ⟨hitems, hlists⟩, henables⟩ := ih _ (hlength ▸ hlt) h rfl
            obtain ⟨item, option, hitem, hoption, hbegins, rfl⟩ := (round_eq_ok hplain).1 hround
            exact ⟨item :: items,
              ⟨List.forall_mem_cons.2 ⟨hitem, hitems⟩, .cons hplain hitems hbegins hlists⟩,
              (enables_cons hoption).2 henables⟩

/-- What a setting enables, and when it is refused, for every family whose names can stand in a
text, as those of the two families do. A setting succeeds exactly if its text is a list of items,
and the options are those of the items, each with the arguments of its last item. Every other text
is an error. There are at most as many rounds of reading as the text has characters. -/
theorem fromEnvironment_exact :
    (∀ {ι : Type} [DecidableEq ι] (family : OptionFamily ι) (environment : Environment)
        (text : String), family.IsPlain → environment.setting? family.setting = some text →
      (∀ options, fromEnvironment family environment = .ok options ↔
        ∃ items, IsListOf family items text.toList ∧ ∀ option args,
          options.enabled option = some args ↔ LastHasArgs family items option args) ∧
      ((∃ options, fromEnvironment family environment = .ok options) ↔
        ∃ items, IsListOf family items text.toList) ∧
      ((∃ error, fromEnvironment family environment = .error error) ↔
        ¬∃ items, IsListOf family items text.toList) ∧
      readRounds family text.length .none text.toList =
        some (fromEnvironment family environment)) ∧
    DumpOption.family.IsPlain ∧ DisableOption.family.IsPlain := by
  refine ⟨?_, DumpOption.isPlain_family, DisableOption.isPlain_family⟩
  intro ι _ family environment text hplain hsetting
  have hread : fromEnvironment family environment = readInto family .none text.toList := by
    simp only [fromEnvironment, hsetting, read]
  rw [hread]
  have hexact (options : Options ι) : readInto family .none text.toList = .ok options ↔
      ∃ items, IsListOf family items text.toList ∧ ∀ option args,
        options.enabled option = some args ↔ LastHasArgs family items option args := by
    constructor
    · intro h
      obtain ⟨items, hitems, henables⟩ := isListOf_of_readInto hplain h
      exact ⟨items, hitems, enables_none.1 henables⟩
    · rintro ⟨items, hitems, henables⟩
      obtain ⟨result, hresult, henables'⟩ := readInto_of_isListOf hplain hitems .none
      rw [hresult, henables'.unique (enables_none.2 henables)]
  have hsucceeds : (∃ options, readInto family .none text.toList = .ok options) ↔
      ∃ items, IsListOf family items text.toList := by
    constructor
    · rintro ⟨options, h⟩
      obtain ⟨items, hitems, -⟩ := (hexact options).1 h
      exact ⟨items, hitems⟩
    · rintro ⟨items, hitems⟩
      obtain ⟨options, hoptions, -⟩ := readInto_of_isListOf hplain hitems .none
      exact ⟨options, hoptions⟩
  refine ⟨hexact, hsucceeds, ?_, readRounds_eq .none text.length_toList.le⟩
  rw [← hsucceeds]
  cases readInto family .none text.toList <;> simp

/-- An option that occurs twice, first with an opening parenthesis among its arguments and then with
two empty arguments, and a comma at the end of the text. -/
theorem fromEnvironment_exact_repeated :
    DumpOption.family.IsPlain ∧
    Environment.setting?
        [("TILEGRAPH_DUMP", "kernel_diagram(a,(b),scope_trace,kernel_diagram(,),")] "DUMP" =
      some "kernel_diagram(a,(b),scope_trace,kernel_diagram(,)," ∧
    ∃ options, fromEnvironment DumpOption.family
        [("TILEGRAPH_DUMP", "kernel_diagram(a,(b),scope_trace,kernel_diagram(,),")] = .ok options ∧
      options.enabled .kernelGraph = Option.none ∧
      options.enabled .kernelDiagram = some ["", ""] ∧ options.enabled .scopeTrace = some [] := by
  have hsetting : Environment.setting?
      [("TILEGRAPH_DUMP", "kernel_diagram(a,(b),scope_trace,kernel_diagram(,),")] "DUMP" =
        some "kernel_diagram(a,(b),scope_trace,kernel_diagram(,)," := by
    decide
  obtain ⟨hexact, -⟩ :=
    fromEnvironment_exact.1 DumpOption.family _ _ DumpOption.isPlain_family hsetting
  let first : Item := .parenthesized "kernel_diagram" "a,(b"
  let second : Item := .bare "scope_trace"
  let third : Item := .parenthesized "kernel_diagram" ","
  have hitems : IsListOf DumpOption.family [first, second, third]
      "kernel_diagram(a,(b),scope_trace,kernel_diagram(,),".toList := by
    decide
  have hfirst : DumpOption.family.named? first.name = some .kernelDiagram := by decide
  have hsecond : DumpOption.family.named? second.name = some .scopeTrace := by decide
  have hthird : DumpOption.family.named? third.name = some .kernelDiagram := by decide
  let options : Options DumpOption := ((Options.none.set .kernelDiagram first.args).set
    .scopeTrace second.args).set .kernelDiagram third.args
  have henables : Enables DumpOption.family .none [first, second, third] options := by
    rw [enables_cons hfirst, enables_cons hsecond, enables_cons hthird, enables_nil]
  exact ⟨DumpOption.isPlain_family, hsetting, options,
    (hexact options).2 ⟨_, hitems, enables_none.1 henables⟩, by decide, by decide, by decide⟩

end TileTrace.Options
