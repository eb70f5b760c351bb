import TileTrace.Coordinate

/-!
# Step definitions

A step is invoked with coordinates and with handles, the names of the values it
reads. Its definition says which function the step runs, how many arguments it
takes, where an invocation finds its tag, and what it produces. Two definitions
are the same only if they were made by the same declaration, so every definition
carries the number of its declaration.
-/

namespace TileTrace

/-- The name of a value that flows into or out of a kernel or a step. -/
abbrev Handle := String

/-- The function a step runs, known by its number. -/
abbrev FunctionId := Nat

/-- The number of a step definition in a context. -/
abbrev StepId := Int

/-- An argument of a step. -/
inductive Argument where
  | coordinate (c : Coordinate)
  | handle (name : Handle)
  deriving DecidableEq, Repr, Inhabited

/-- The coordinate of an argument that is one. -/
def Argument.coordinate? : Argument → Option Coordinate
  | coordinate c => some c
  | handle _ => none

/-- The handle of an argument that is one. -/
def Argument.handle? : Argument → Option Handle
  | coordinate _ => none
  | handle name => some name

/-- Where the tag of an invocation comes from: a fixed coordinate, or the argument passed for a
parameter. -/
inductive TagSource where
  | literal (tag : Coordinate)
  | parameter (name : String)
  deriving DecidableEq, Repr, Inhabited

namespace TagSource

/-- Whether the tag is fixed. -/
def isLiteral : TagSource → Bool
  | literal _ => true
  | parameter _ => false

/-- The fixed tag. -/
def literalTag : TagSource → Except Error Coordinate
  | literal tag => .ok tag
  | parameter name => .error (.parameterTagSource name)

/-- The parameter that the tag is passed for. -/
def parameterName : TagSource → Except Error String
  | literal _ => .error .literalTagSource
  | parameter name => .ok name

end TagSource

/-- A step definition. Its tag comes from one of its parameters, or is fixed. -/
structure StepDefinition where
  /-- The number of the declaration that made the definition. -/
  declaration : Nat
  name : String
  function : FunctionId
  parameters : List String
  tagSource : TagSource
  outputs : List Handle
  /-- The number that the definition asks for in every context. -/
  requestedId : Option StepId
  tag_mem : ∀ p, tagSource = .parameter p → p ∈ parameters
  deriving DecidableEq

namespace StepDefinition

/-- Declare a step. It needs a function, and a tag that is passed as an argument needs a
parameter. -/
def declare (declaration : Nat) (name : String) (function : Option FunctionId)
    (parameters : List String) (tagSource : TagSource) (outputs : List Handle)
    (requestedId : Option StepId) : Except Error StepDefinition :=
  match function with
  | none => .error (.stepWithoutFunction name)
  | some function =>
      match tagSource with
      | .literal tag =>
          .ok ⟨declaration, name, function, parameters, .literal tag, outputs, requestedId,
            by simp⟩
      | .parameter p =>
          if h : p ∈ parameters then
            .ok ⟨declaration, name, function, parameters, .parameter p, outputs, requestedId,
              by simp [h]⟩
          else .error (.tagNotParameter p name parameters)

/-- The definition as shown in messages. -/
def text (d : StepDefinition) : String :=
  "<Step> " ++ d.name

/-- The tag of an invocation with the given arguments. -/
def resolveTag (d : StepDefinition) (args : List Argument) : Except Error Coordinate :=
  match d.tagSource with
  | .literal tag => .ok tag
  | .parameter p =>
      match args[d.parameters.idxOf p]? with
      | some (.coordinate tag) => .ok tag
      | some (.handle name) => .error (.tagArgumentNotCoordinate d.name p name)
      | none => .error .tagArgumentMissing

/-- The handles among the arguments of an invocation, in order. -/
def inputsOf (args : List Argument) : List Handle :=
  args.filterMap Argument.handle?

/-- Check the number of arguments of an invocation. -/
def checkArity (d : StepDefinition) (args : List Argument) : Except Error Unit :=
  if args.length = d.parameters.length then .ok ()
  else .error (.argumentCount d.name args.length d.parameters.length)

theorem checkArity_eq_ok {d : StepDefinition} {args : List Argument} :
    d.checkArity args = .ok () ↔ args.length = d.parameters.length := by
  rw [checkArity]
  split
  · next h => exact ⟨fun _ => h, fun _ => rfl⟩
  · next h => exact ⟨nofun, fun hlength => absurd hlength h⟩

end StepDefinition

end TileTrace
