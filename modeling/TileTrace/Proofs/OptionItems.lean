import TileTrace.Options.Text

/-!
# Items of option texts

An option text is a list of items. An item is a name alone, or a name with a
text in parentheses right behind it, which has no closing parenthesis of its
own. There are commas between the items, and one more may follow the last of
them. The commas and opening parentheses inside an item do not matter for the
list, so the items are defined here by what they look like in the text, and not
by how a reader goes through it.
-/

namespace TileTrace

/-- The names of a family can stand in a text: none is empty, and none has a comma or an opening
parenthesis. -/
def OptionFamily.IsPlain {ι : Type} (family : OptionFamily ι) : Prop :=
  ∀ entry ∈ family.names, entry.1 ≠ "" ∧ ',' ∉ entry.1.toList ∧ '(' ∉ entry.1.toList

instance {ι : Type} (family : OptionFamily ι) : Decidable family.IsPlain :=
  inferInstanceAs (Decidable (∀ _ ∈ _, _))

theorem DumpOption.isPlain_family : DumpOption.family.IsPlain := by
  decide

theorem DisableOption.isPlain_family : DisableOption.family.IsPlain := by
  decide

/-- The names of a family are those that some option has. -/
theorem OptionFamily.exists_named?_iff {ι : Type} {family : OptionFamily ι} {name : String} :
    (∃ option, family.named? name = some option) ↔ name ∈ family.names.map Prod.fst := by
  rw [← Option.isSome_iff_exists, OptionFamily.named?, List.lookup_isSome_iff, List.mem_map]
  exact exists_congr fun _ => and_congr_right fun _ => beq_iff_eq.trans eq_comm

namespace Options

variable {ι : Type} {family : OptionFamily ι}

/-! ## One item -/

/-- An item of an option text. -/
inductive Item where
  /-- A name alone. -/
  | bare (name : String)
  /-- A name with a text in parentheses right behind it. -/
  | parenthesized (name inside : String)
  deriving DecidableEq, Repr

namespace Item

def name : Item → String
  | bare name => name
  | parenthesized name _ => name

/-- What an item has behind its name. -/
def behindName : Item → List Char
  | bare _ => []
  | parenthesized _ inside => '(' :: inside.toList ++ [')']

/-- An item as it is written. -/
def text (item : Item) : List Char :=
  item.name.toList ++ item.behindName

/-- The first closing parenthesis behind a name is the last character of the item. -/
def IsClosed : Item → Prop
  | bare _ => True
  | parenthesized _ inside => ')' ∉ inside.toList

instance : (item : Item) → Decidable item.IsClosed
  | bare _ => inferInstanceAs (Decidable True)
  | parenthesized _ inside => inferInstanceAs (Decidable (')' ∉ inside.toList))

/-- An item for an option of the family. -/
structure IsOf (family : OptionFamily ι) (item : Item) : Prop where
  available : item.name ∈ family.names.map Prod.fst
  closed : item.IsClosed

instance (family : OptionFamily ι) (item : Item) : Decidable (item.IsOf family) :=
  decidable_of_iff (item.name ∈ family.names.map Prod.fst ∧ item.IsClosed)
    ⟨fun h => ⟨h.1, h.2⟩, fun h => ⟨h.available, h.closed⟩⟩

theorem IsOf.plain {item : Item} (hitem : item.IsOf family) (hplain : family.IsPlain) :
    item.name ≠ "" ∧ ',' ∉ item.name.toList ∧ '(' ∉ item.name.toList := by
  obtain ⟨entry, hentry, hname⟩ := List.mem_map.1 hitem.available
  rw [← hname]
  exact hplain entry hentry

/-- The arguments of an item. A bare name has none. Otherwise they are the text in parentheses when
commas are put between them, and they have no commas of their own, so there is one more of them
than there are commas. -/
def HasArgs : Item → List String → Prop
  | bare _, args => args = []
  | parenthesized _ inside, args =>
      [','].intercalate (args.map String.toList) = inside.toList ∧
      (∀ arg ∈ args, ',' ∉ arg.toList) ∧ args.length = inside.toList.count ',' + 1

/-- The arguments of an item, by cutting its text. -/
def args : Item → List String
  | bare _ => []
  | parenthesized _ inside => (pieces ',' inside.toList).map String.ofList

/-- An item has one list of arguments. -/
theorem hasArgs_iff {item : Item} {args : List String} : item.HasArgs args ↔ args = item.args := by
  cases item with
  | bare name => exact Iff.rfl
  | parenthesized name inside =>
      constructor
      · rintro ⟨hjoined, hplain, hlength⟩
        have hne : args.map String.toList ≠ [] := by
          intro hnil
          simp [List.map_eq_nil_iff.1 hnil] at hlength
        have hpieces : pieces ',' inside.toList = args.map String.toList := by
          rw [pieces_eq_splitOn, ← hjoined]
          exact List.splitOn_intercalate ',' (by simpa using hplain) hne
        simp [Item.args, hpieces]
      · rintro rfl
        have hread : (pieces ',' inside.toList).map (String.toList ∘ String.ofList) =
            pieces ',' inside.toList := by
          simp
        refine ⟨?_, ?_, ?_⟩
        · rw [Item.args, List.map_map, hread, pieces_eq_splitOn, List.intercalate_splitOn]
        · intro arg harg
          obtain ⟨piece, hpiece, rfl⟩ := List.mem_map.1 harg
          rw [String.toList_ofList]
          exact notMem_of_mem_pieces hpiece
        · rw [Item.args, List.length_map, length_pieces]

/-- This text stands behind the name of an item, and that one follows the item and its comma. -/
def IsBehind (item : Item) (rest after : List Char) : Prop :=
  (rest = item.behindName ∧ after = []) ∨ rest = item.behindName ++ ',' :: after

/-- A text begins with an item, and that text follows the item and its comma. -/
def Begins (item : Item) (text after : List Char) : Prop :=
  ∃ rest, text = item.name.toList ++ rest ∧ item.IsBehind rest after

theorem begins_iff {item : Item} {text after : List Char} : item.Begins text after ↔
    (text = item.text ∧ after = []) ∨ text = item.text ++ ',' :: after := by
  constructor
  · rintro ⟨rest, rfl, ⟨rfl, hafter⟩ | rfl⟩
    · exact .inl ⟨rfl, hafter⟩
    · exact .inr (List.append_assoc ..).symm
  · rintro (⟨rfl, hafter⟩ | rfl)
    · exact ⟨_, rfl, .inl ⟨rfl, hafter⟩⟩
    · exact ⟨_, List.append_assoc .., .inr rfl⟩

/-- A text that begins with an item has characters, because names are not empty. -/
theorem Begins.ne_nil {item : Item} {text after : List Char} (h : item.Begins text after)
    (hplain : family.IsPlain) (hitem : item.IsOf family) : text ≠ [] := by
  obtain ⟨rest, rfl, -⟩ := h
  intro hnil
  have hempty := (List.append_eq_nil_iff.1 hnil).1
  exact (hitem.plain hplain).1 (String.toList_eq_nil_iff.1 hempty)

end Item

/-! ## Lists of items -/

/-- An option text: empty, or items with commas between them, and one more comma may follow the
last item. -/
def Lists (items : List Item) (text : List Char) : Prop :=
  (items = [] ∧ text = []) ∨
  (items ≠ [] ∧ (text = [','].intercalate (items.map Item.text) ∨
    text = [','].intercalate (items.map Item.text) ++ [',']))

instance (items : List Item) (text : List Char) : Decidable (Lists items text) :=
  inferInstanceAs (Decidable (_ ∨ _))

/-- A list of items begins with its first item, and the list of the others follows. -/
theorem Lists.uncons {item : Item} {items : List Item} {text : List Char}
    (h : Lists (item :: items) text) : ∃ after, item.Begins text after ∧ Lists items after := by
  obtain ⟨hnil, -⟩ | ⟨-, h⟩ := h
  · cases hnil
  cases items with
  | nil => exact ⟨[], Item.begins_iff.2 (by simpa using h), .inl ⟨rfl, rfl⟩⟩
  | cons next items =>
      have hne : next :: items ≠ [] := List.cons_ne_nil next items
      simp only [List.map_cons, List.intercalate_cons_cons, List.append_assoc,
        List.singleton_append] at h
      obtain rfl | rfl := h
      · exact ⟨_, Item.begins_iff.2 (.inr rfl), .inr ⟨hne, .inl rfl⟩⟩
      · exact ⟨_, Item.begins_iff.2 (.inr rfl), .inr ⟨hne, .inr rfl⟩⟩

/-- An item can be put in front of a list of items. -/
theorem Lists.cons (hplain : family.IsPlain) {item : Item} {items : List Item}
    {text after : List Char} (hitems : ∀ other ∈ items, other.IsOf family)
    (hbegins : item.Begins text after) (h : Lists items after) : Lists (item :: items) text := by
  refine .inr ⟨List.cons_ne_nil item items, ?_⟩
  cases items with
  | nil =>
      obtain ⟨-, rfl⟩ | ⟨hne, -⟩ := h
      · simpa using Item.begins_iff.1 hbegins
      · exact absurd rfl hne
  | cons next items =>
      -- More items follow, so the first one cannot be the end of the text.
      obtain ⟨rest, hnext, -⟩ := h.uncons
      have hafter : after ≠ [] := hnext.ne_nil hplain (hitems next List.mem_cons_self)
      obtain rfl : text = item.text ++ ',' :: after :=
        (Item.begins_iff.1 hbegins).resolve_left fun hend => hafter hend.2
      obtain ⟨hnil, -⟩ | ⟨-, h⟩ := h
      · cases hnil
      simp only [List.map_cons, List.intercalate_cons_cons, List.append_assoc,
        List.singleton_append]
      exact h.imp (congrArg (item.text ++ ',' :: ·)) (congrArg (item.text ++ ',' :: ·))

/-- A text consists of items for options of the family. -/
structure IsListOf (family : OptionFamily ι) (items : List Item) (text : List Char) : Prop where
  isOf : ∀ item ∈ items, item.IsOf family
  lists : Lists items text

instance (family : OptionFamily ι) (items : List Item) (text : List Char) :
    Decidable (IsListOf family items text) :=
  decidable_of_iff ((∀ item ∈ items, item.IsOf family) ∧ Lists items text)
    ⟨fun h => ⟨h.1, h.2⟩, fun h => ⟨h.isOf, h.lists⟩⟩

/-! ## Last items -/

/-- The last item for an option has these arguments. -/
def LastHasArgs (family : OptionFamily ι) (items : List Item) (option : ι)
    (args : List String) : Prop :=
  ∃ before item after, items = before ++ item :: after ∧
    family.named? item.name = some option ∧ item.HasArgs args ∧
    ∀ later ∈ after, family.named? later.name ≠ some option

/-- The first item counts if none of the others is for its option. -/
theorem lastHasArgs_cons {item : Item} {items : List Item} {option : ι} {args : List String} :
    LastHasArgs family (item :: items) option args ↔
      LastHasArgs family items option args ∨
        (family.named? item.name = some option ∧ item.HasArgs args ∧
          ∀ later ∈ items, family.named? later.name ≠ some option) := by
  constructor
  · rintro ⟨before, last, after, hitems, hlast⟩
    obtain ⟨rfl, hitems⟩ | ⟨before, rfl, rfl⟩ := List.cons_eq_append_iff.1 hitems
    · cases hitems
      exact .inr hlast
    · exact .inl ⟨before, last, after, rfl, hlast⟩
  · rintro (⟨before, last, after, rfl, hlast⟩ | hlast)
    · exact ⟨item :: before, last, after, rfl, hlast⟩
    · exact ⟨[], item, items, rfl, hlast⟩

/-- The options after these items: the last item for an option decides, and an option without items
is as it was. -/
def Enables (family : OptionFamily ι) (options : Options ι) (items : List Item)
    (result : Options ι) : Prop :=
  ∀ option args, result.enabled option = some args ↔
    LastHasArgs family items option args ∨
      (options.enabled option = some args ∧
        ∀ item ∈ items, family.named? item.name ≠ some option)

/-- Items determine the options that they enable. -/
theorem Enables.unique {options result result' : Options ι} {items : List Item}
    (h : Enables family options items result) (h' : Enables family options items result') :
    result = result' := by
  have henabled : result.enabled = result'.enabled := by
    funext option
    exact Option.ext fun args => (h option args).trans (h' option args).symm
  cases result
  cases result'
  exact congrArg Options.mk henabled

theorem enables_nil {options result : Options ι} :
    Enables family options [] result ↔ result = options := by
  have hsame : Enables family options [] options := fun option args => by simp [LastHasArgs]
  exact ⟨fun h => h.unique hsame, fun h => h ▸ hsame⟩

/-- Options that were not enabled before come from the items alone. -/
theorem enables_none {items : List Item} {result : Options ι} :
    Enables family .none items result ↔
      ∀ option args, result.enabled option = some args ↔ LastHasArgs family items option args := by
  simp [Enables, none]

/-- The first item enables its option, and the others may change that. -/
theorem enables_cons [DecidableEq ι] {options result : Options ι} {item : Item}
    {items : List Item} {option : ι} (hoption : family.named? item.name = some option) :
    Enables family options (item :: items) result ↔
      Enables family (options.set option item.args) items result := by
  refine forall_congr' fun other => forall_congr' fun args => iff_congr Iff.rfl ?_
  rw [lastHasArgs_cons, Item.hasArgs_iff, hoption, or_assoc]
  refine or_congr_right ?_
  by_cases h : other = option
  · subst h
    have hset : (options.set other item.args).enabled other = some item.args := if_pos rfl
    constructor
    · rintro (⟨-, rfl, hlater⟩ | ⟨-, hnone⟩)
      · exact ⟨hset, hlater⟩
      · exact absurd hoption (hnone item List.mem_cons_self)
    · rintro ⟨hargs, hlater⟩
      exact .inl ⟨rfl, Option.some.inj (hargs.symm.trans hset), hlater⟩
  · simp [set, hoption, h, Ne.symm h]

end Options
end TileTrace
