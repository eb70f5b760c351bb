import TileTrace.Error

/-!
# Options

There are two families of options. Dump options ask for print-outs while a
program is recorded, and disable options turn a feature off. A set of options
says which options of a family are enabled, each with its arguments.
-/

namespace TileTrace

/-- What to print while a program is recorded. -/
inductive DumpOption where
  /-- The node tree of a kernel when it is closed. -/
  | kernelGraph
  /-- The diagram of a kernel when it is closed, or a diagram file under the directory given as the
  argument. -/
  | kernelDiagram
  /-- A line whenever a scope is opened or closed or a step is recorded. -/
  | scopeTrace
  deriving DecidableEq, Repr, Inhabited

/-- What to turn off. -/
inductive DisableOption where
  /-- Recording. Programs then run as if no context were active. -/
  | recording
  deriving DecidableEq, Repr, Inhabited

/-- A family of options: the setting that enables them and their names. -/
structure OptionFamily (ι : Type) where
  setting : String
  names : List (String × ι)

/-- The dump options. -/
def DumpOption.family : OptionFamily DumpOption :=
  ⟨"DUMP", [("kernel_graph", kernelGraph), ("kernel_diagram", kernelDiagram),
    ("scope_trace", scopeTrace)]⟩

/-- The disable options. -/
def DisableOption.family : OptionFamily DisableOption :=
  ⟨"DISABLE", [("recording", recording)]⟩

/-- The option with the given name. -/
def OptionFamily.named? {ι : Type} (family : OptionFamily ι) (name : String) : Option ι :=
  family.names.lookup name

/-- The enabled options, each with its arguments. -/
structure Options (ι : Type) where
  enabled : ι → Option (List String)

namespace Options

variable {ι : Type}

/-- No option is enabled. -/
def none : Options ι :=
  ⟨fun _ => .none⟩

instance : Inhabited (Options ι) := ⟨none⟩

/-- Whether an option is enabled. -/
def has (options : Options ι) (option : ι) : Bool :=
  (options.enabled option).isSome

/-- The arguments of an enabled option. -/
def args (options : Options ι) (option : ι) : Except Error (List String) :=
  match options.enabled option with
  | some args => .ok args
  | .none => .error .optionNotSet

/-- Whether an option is enabled with the given argument among its arguments. -/
def hasArg (options : Options ι) (option : ι) (arg : String) : Bool :=
  match options.enabled option with
  | some args => args.contains arg
  | .none => false

variable [DecidableEq ι]

/-- Enable an option with the given arguments, which replace earlier ones. -/
def set (options : Options ι) (option : ι) (args : List String) : Options ι :=
  ⟨fun other => if other = option then some args else options.enabled other⟩

/-- Turn an option off. -/
def unset (options : Options ι) (option : ι) : Options ι :=
  ⟨fun other => if other = option then .none else options.enabled other⟩

/-- The enabled options by name, in the order of their family. -/
def toList (options : Options ι) (family : OptionFamily ι) : List (String × List String) :=
  family.names.filterMap fun (name, option) => (options.enabled option).map (name, ·)

end Options

end TileTrace
