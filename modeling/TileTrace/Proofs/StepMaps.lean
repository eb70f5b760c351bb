import Mathlib.Logic.Function.Basic
import TileTrace.Proofs.StepNumbers

/-!
# Two maps for the numbers of definitions

A registry has one list of bindings. `StepMaps` has two maps in its place, one from
functions to numbers and one from numbers to definitions, and binding a definition
writes both. `Holds` says that the maps hold the bindings of a registry, and
`Holds.bind` that they do so after every definition that is bound, so that the maps
stay in step, by `Holds.ids_eq_some`.
-/

namespace TileTrace

/-- The numbers of functions and the definitions of numbers, in a map each, and the next number. -/
structure StepMaps where
  ids : FunctionId → Option StepId := fun _ => none
  definitions : StepId → Option StepDefinition := fun _ => none
  next : StepId := 0

namespace StepMaps

/-- The number of a function and the definition of this number. Every number of a function has one,
by `Holds.ids_eq_some`. -/
def bindingOf (maps : StepMaps) (function : FunctionId) : Option (StepId × StepDefinition) := do
  let number ← maps.ids function
  let holder ← maps.definitions number
  return (number, holder)

/-- The number of a definition. -/
def id? (maps : StepMaps) (d : StepDefinition) : Option StepId := do
  let (number, holder) ← maps.bindingOf d.function
  if holder = d then some number else none

/-- Bind a function to a number. -/
def setId (maps : StepMaps) (function : FunctionId) (number : StepId) : StepMaps :=
  { maps with ids := Function.update maps.ids function (some number) }

/-- Bind a number to a definition. -/
def setDefinition (maps : StepMaps) (number : StepId) (d : StepDefinition) : StepMaps :=
  { maps with definitions := Function.update maps.definitions number (some d) }

/-- Bind a definition, to the requested number if there is one. -/
def bind (maps : StepMaps) (d : StepDefinition) (requested : Option StepId) :
    Except Error (StepId × StepMaps) :=
  match maps.bindingOf d.function with
  | some (number, holder) =>
      if holder = d then
        match requested with
        | some wanted =>
            if wanted = number then .ok (number, maps)
            else .error (.boundElsewhere d.name number wanted)
        | none => .ok (number, maps)
      else .error (.functionTaken d.name holder.text number)
  | none =>
      let number := requested.getD maps.next
      if number < 0 then .error (.negativeStepId number)
      else match maps.definitions number with
        | some holder => .error (.stepIdTaken number holder.text)
        | none =>
            let bound := (maps.setId d.function number).setDefinition number d
            .ok (number, { bound with next := max bound.next (number + 1) })

/-- The maps hold the bindings of a registry. -/
structure Holds (maps : StepMaps) (registry : Registry) : Prop where
  ids : ∀ function, maps.ids function = registry.number? function
  definitions : ∀ number, maps.definitions number = registry.definition? number
  next : maps.next = registry.next

namespace Holds

variable {maps : StepMaps} {registry : Registry} {d : StepDefinition}

/-- A function that has a number has the definition of the number, so both maps together find what
the bindings say. -/
theorem bindingOf_eq (h : maps.Holds registry) (hregistry : registry.Consistent)
    (function : FunctionId) : maps.bindingOf function = registry.bindingOf function := by
  rw [StepMaps.bindingOf, h.ids, Registry.number?]
  cases hbinding : registry.bindingOf function with
  | none => rfl
  | some binding =>
      obtain ⟨hmem, -⟩ := hregistry.bindingOf_eq_some.1 hbinding
      have hholder : maps.definitions binding.1 = some binding.2 := by
        rw [h.definitions, hregistry.definition?_eq_some]
        exact hmem
      rw [Option.map_some, Option.bind_eq_bind, Option.bind_some, hholder]
      rfl

/-- A definition has the same number. -/
theorem id?_eq (h : maps.Holds registry) (hregistry : registry.Consistent) (d : StepDefinition) :
    maps.id? d = registry.id? d := by
  rw [StepMaps.id?, Registry.id?, h.bindingOf_eq hregistry]
  cases registry.bindingOf d.function <;> rfl

/-- The maps are in step: a function is mapped to a number exactly when the number is mapped to a
definition with this function. -/
theorem ids_eq_some (h : maps.Holds registry) (hregistry : registry.Consistent)
    {function : FunctionId} {number : StepId} :
    maps.ids function = some number ↔
      ∃ d, maps.definitions number = some d ∧ d.function = function := by
  simp only [h.ids, h.definitions, hregistry.number?_eq_some, hregistry.definition?_eq_some]

/-- A binding is put into both maps. -/
theorem cons (h : maps.Holds registry) (number : StepId) (d : StepDefinition) :
    let bound := (maps.setId d.function number).setDefinition number d
    Holds { bound with next := max bound.next (number + 1) }
      ⟨(number, d) :: registry.bindings, max registry.next (number + 1)⟩ where
  ids function := by
    change Function.update maps.ids d.function (some number) function = _
    rw [Function.update_apply, Registry.number?, Registry.bindingOf, List.find?_cons]
    by_cases hfunction : d.function = function
    · rw [if_pos hfunction.symm]
      simp [hfunction]
    · rw [if_neg (Ne.symm hfunction), h.ids]
      simp [hfunction, Registry.number?, Registry.bindingOf]
  definitions other := by
    change Function.update maps.definitions number (some d) other = _
    rw [Function.update_apply, Registry.definition?, List.lookup_cons]
    by_cases hother : other = number
    · simp [hother]
    · rw [if_neg hother, h.definitions, beq_false_of_ne hother]
      rfl
  next := by
    change max maps.next (number + 1) = _
    rw [h.next]

/-- Binding with two maps and with a list of bindings gives the same number, or fails in the same
way. -/
theorem bind (h : maps.Holds registry) (hregistry : registry.Consistent) (d : StepDefinition)
    (requested : Option StepId) :
    match registry.bind d requested with
    | .ok (number, registry') =>
        ∃ maps', maps.bind d requested = .ok (number, maps') ∧ maps'.Holds registry'
    | .error e => maps.bind d requested = .error e := by
  rw [Registry.bind, StepMaps.bind, h.bindingOf_eq hregistry]
  cases registry.bindingOf d.function with
  | some binding =>
      by_cases hholder : binding.2 = d
      · cases requested with
        | none => simpa [hholder] using h
        | some wanted => by_cases hwanted : wanted = binding.1 <;> simp [hholder, hwanted, h]
      · simp [hholder]
  | none =>
      simp only [h.definitions, h.next]
      by_cases hnegative : requested.getD registry.next < 0
      · simp only [if_pos hnegative]
      · simp only [if_neg hnegative]
        cases registry.definition? (requested.getD registry.next) with
        | some holder => rfl
        | none =>
            have hcons := h.cons (requested.getD registry.next) d
            exact ⟨_, by rw [← h.next], hcons⟩

end Holds

end StepMaps

end TileTrace
