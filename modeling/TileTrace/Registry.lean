import TileTrace.Step

/-!
# Numbers of step definitions

A context gives every step definition that is recorded in it a number. A
definition is known by the function it runs: another definition of the same
function is refused, and so is a second number for a definition. A definition
may ask for a number. Otherwise it gets the next one, which is above all numbers
given so far.
-/

namespace TileTrace

/-- The bound step definitions with their numbers, latest first, and the next number. -/
structure Registry where
  bindings : List (StepId × StepDefinition) := []
  next : StepId := 0
  deriving DecidableEq

namespace Registry

/-- The binding of a function. -/
def bindingOf (registry : Registry) (function : FunctionId) : Option (StepId × StepDefinition) :=
  registry.bindings.find? (·.2.function = function)

/-- The definition with the given number. -/
def definition? (registry : Registry) (id : StepId) : Option StepDefinition :=
  registry.bindings.lookup id

/-- The number of a definition. -/
def id? (registry : Registry) (d : StepDefinition) : Option StepId :=
  match registry.bindingOf d.function with
  | some (id, holder) => if holder = d then some id else none
  | none => none

/-- Bind a definition, to the requested number if there is one. A definition that is bound already
keeps its number. -/
def bind (registry : Registry) (d : StepDefinition) (requested : Option StepId) :
    Except Error (StepId × Registry) :=
  match registry.bindingOf d.function with
  | some (id, holder) =>
      if holder = d then
        match requested with
        | some wanted =>
            if wanted = id then .ok (id, registry) else .error (.boundElsewhere d.name id wanted)
        | none => .ok (id, registry)
      else .error (.functionTaken d.name holder.text id)
  | none =>
      let id := requested.getD registry.next
      if id < 0 then .error (.negativeStepId id)
      else match registry.definition? id with
        | some holder => .error (.stepIdTaken id holder.text)
        | none => .ok (id, ⟨(id, d) :: registry.bindings, max registry.next (id + 1)⟩)

end Registry

end TileTrace
