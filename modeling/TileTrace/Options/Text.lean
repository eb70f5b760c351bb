import TileTrace.Environment
import TileTrace.Options
import TileTrace.Pieces

/-!
# Option texts

An option text lists option names with commas between them. A name may be
followed by arguments in parentheses, again with commas between them. Argument
texts reach up to the first closing parenthesis, and empty arguments count. One
comma may follow the last option. When an option occurs more than once, its last
occurrence holds.
-/

namespace TileTrace.Options

/-- Whether a character can be part of an option name. -/
def isNameChar (c : Char) : Bool :=
  c ≠ ',' && c ≠ '('

/-- Whether a character can be part of an argument list. -/
def isArgumentChar (c : Char) : Bool :=
  c ≠ ')'

/-- What `dropWhile` leaves is not longer than the list. -/
theorem length_dropWhile_le {α : Type} (p : α → Bool) (xs : List α) :
    (xs.dropWhile p).length ≤ xs.length := by
  induction xs with
  | nil => simp
  | cons x xs ih =>
      rw [List.dropWhile_cons]
      split
      · exact Nat.le_succ_of_le ih
      · exact Nat.le_refl _

/-- The arguments at the start of a text that has a closing parenthesis. -/
def argumentList (text : List Char) : List String :=
  (pieces ',' (text.takeWhile isArgumentChar)).map String.ofList

/-- What follows the first option of a text: its arguments, and the text after it and after the
comma that ends it. -/
def afterName (source name : String) (rest : List Char) :
    Except Error (List String × List Char) :=
  match rest with
  | [] => .ok ([], [])
  | ',' :: after => .ok ([], after)
  | _ :: inside =>
      match inside.dropWhile isArgumentChar with
      | [] => .error (.unclosedArguments source name)
      | [_] => .ok (argumentList inside, [])
      | _ :: ',' :: after => .ok (argumentList inside, after)
      | _ => .error (.textAfterArguments source name)

/-- The text after the first option is not longer than what follows its name. -/
theorem length_afterName_le {source name : String} {rest after : List Char} {args : List String}
    (h : afterName source name rest = .ok (args, after)) : after.length ≤ rest.length - 1 := by
  unfold afterName at h
  split at h
  · cases h; simp
  · cases h; simp
  · next c inside _ =>
      have hdrop := length_dropWhile_le isArgumentChar inside
      split at h
      · cases h
      · cases h; simp
      · next heq =>
          cases h
          simp only [heq, List.length_cons] at hdrop ⊢
          omega
      · cases h

variable {ι : Type} [DecidableEq ι]

/-- Read the rest of an option text into the options enabled so far. -/
def readInto (family : OptionFamily ι) (options : Options ι) (text : List Char) :
    Except Error (Options ι) :=
  if _ : text = [] then .ok options
  else
    let name := String.ofList (text.takeWhile isNameChar)
    let source := Environment.variableName family.setting
    match family.named? name with
    | .none => .error (.unknownOption source name ((family.names.map (·.1)).mergeSort (· ≤ ·)))
    | some option =>
        match _ : afterName source name (text.dropWhile isNameChar) with
        | .error e => .error e
        | .ok (args, after) => readInto family (options.set option args) after
termination_by text.length
decreasing_by
  have hle := length_afterName_le ‹_ = Except.ok (_, after)›
  have hdrop := length_dropWhile_le isNameChar text
  have hpos : 0 < text.length := List.length_pos_iff.mpr ‹_›
  omega

/-- The options that a text enables. -/
def read (family : OptionFamily ι) (text : String) : Except Error (Options ι) :=
  readInto family .none text.toList

/-- The options that the environment enables. -/
def fromEnvironment (family : OptionFamily ι) (environment : Environment) :
    Except Error (Options ι) :=
  match environment.setting? family.setting with
  | some text => read family text
  | .none => .ok .none

end TileTrace.Options
