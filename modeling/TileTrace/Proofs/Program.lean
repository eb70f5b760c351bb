import TileTrace.FrontEnd

/-!
# Programs

A traced program launches kernels, loops over tiles, and calls steps, whose
functions are programs again. `Functions.run` runs a program with the front end.
`Program.kernels` says what the program means as a record, by recursion on the
program and without a context: the trees of its launches, one after the other.
The trees are complete, so the meaning keeps count of the numbers and symbols
that nodes get.
-/

namespace TileTrace

/-- A program. A body may depend on the index of its block or tile. -/
inductive Program where
  | done
  | fail (error : Error)
  | launch (kernel : Launch) (body : Value → Program) (rest : Program)
  | loop (extent : Value) (body : Value → Program) (rest : Program)
  | call (step : StepDefinition) (args : List Argument) (rest : Program)

/-- The bodies of step functions. -/
abbrev Functions := FunctionId → List Argument → Program

/-- An invocation of a step. -/
structure Invocation where
  step : StepDefinition
  args : List Argument

/-! ## Running programs -/

/-- A computation that also lists the invocations of steps, in order. -/
abbrev Play := StateT (List Invocation) Trace

/-- Run a program, given how to invoke a step. -/
def Program.play (invoke : StepDefinition → List Argument → Play Unit) : Program → Play Unit
  | done => pure ()
  | fail error => throw error
  | launch kernel body rest => do
      FrontEnd.launchKernel kernel fun block => (body block).play invoke
      rest.play invoke
  | loop extent body rest => do
      FrontEnd.tileLoop extent fun index => (body index).play invoke
      rest.play invoke
  | call step args rest => do
      invoke step args
      rest.play invoke

namespace Functions

/-- Invoke a step and run its function. The number bounds the nesting of steps. -/
def invoke (functions : Functions) : Nat → StepDefinition → List Argument → Play Unit
  | 0, _, _ => throw .tooDeep
  | depth + 1, step, args =>
      FrontEnd.invokeStep (fun function args => do
        modify (· ++ [⟨step, args⟩])
        (functions function args).play (functions.invoke depth)) step args

/-- Run a program. The result lists the invocations of steps. -/
def run (functions : Functions) (depth : Nat) (p : Program) : Trace (List Invocation) := do
  let ((), invocations) ← (p.play (functions.invoke depth)).run []
  return invocations

/-- Run a program while a guard records into a context. The guard ends also when the program
fails. -/
def record (functions : Functions) (depth : Nat) (id : ContextId) (p : Program) :
    Trace (List Invocation) := do
  let guard ← Guard.record id
  let result ← observing (functions.run depth p)
  guard.leave
  Trace.ofExcept result

end Functions

/-! ## What programs mean -/

/-- The names of the handles among arguments. They are the inputs of an invocation. -/
def Argument.handles : List Argument → List Handle
  | [] => []
  | .handle name :: args => name :: handles args
  | .coordinate _ :: args => handles args

/-- The inputs of a step are found among its arguments by a filter. -/
theorem StepDefinition.inputsOf_eq_handles (args : List Argument) :
    inputsOf args = Argument.handles args := by
  induction args with
  | nil => rfl
  | cons arg args ih =>
      cases arg with
      | coordinate _ => exact ih
      | handle name => exact congrArg (name :: ·) ih

/-- What is passed for a parameter. Of parameters with the same name the first one counts. -/
def Argument.passedFor (p : String) : List String → List Argument → Option Argument
  | name :: names, arg :: args => if name = p then some arg else passedFor p names args
  | _, _ => none

/-- The tag of an invocation: a fixed one, or the coordinate that is passed for the tag. -/
def StepDefinition.tagOf (d : StepDefinition) (args : List Argument) : Option Coordinate :=
  match d.tagSource with
  | .literal tag => some tag
  | .parameter p =>
      match Argument.passedFor p d.parameters args with
      | some (.coordinate tag) => some tag
      | _ => none

theorem Argument.passedFor_eq {p : String} {names : List String} (h : p ∈ names)
    (args : List Argument) : passedFor p names args = args[names.idxOf p]? := by
  induction names generalizing args with
  | nil => cases h
  | cons name names ih =>
      cases args with
      | nil => rfl
      | cons arg args =>
          by_cases hname : name = p
          · subst hname
            simp [passedFor]
          · have hrest : p ∈ names := (List.mem_cons.1 h).resolve_left (Ne.symm hname)
            rw [passedFor, if_neg hname, ih hrest, List.idxOf_cons, beq_false_of_ne hname,
              cond_false, List.getElem?_cons_succ]

/-- The tag of an invocation is found among its arguments by the position of the parameter. -/
theorem StepDefinition.resolveTag_eq_ok {d : StepDefinition} {args : List Argument}
    {tag : Coordinate} : d.resolveTag args = .ok tag ↔ d.tagOf args = some tag := by
  rw [resolveTag, tagOf]
  cases hsource : d.tagSource with
  | literal fixed => simp
  | parameter p =>
      dsimp only
      rw [Argument.passedFor_eq (d.tag_mem p hsource)]
      cases args[d.parameters.idxOf p]? with
      | none => simp
      | some arg => cases arg <;> simp

/-- What the nodes that come next get: their numbers, symbols, and numbers of definitions. -/
structure Cursor where
  next : NodeId
  tiles : SymbolSource
  coords : SymbolSource
  registry : Registry

namespace Cursor

/-- The kernel of a launch. -/
def kernel (cursor : Cursor) (launch : Launch) : Node :=
  ⟨cursor.next, launch.template, none, true, .kernel launch.name launch.inputs launch.outputs⟩

/-- The grid loop of a launch. -/
def grid (cursor : Cursor) (launch : Launch) : Node :=
  ⟨cursor.next + 1, launch.template.bind (.bound cursor.tiles.next.1), some cursor.next, true,
    .loop .grid cursor.tiles.next.1 (some launch.grid)⟩

/-- The cursor after the kernel and the grid loop of a launch. -/
def afterGrid (cursor : Cursor) : Cursor :=
  { cursor with next := cursor.next + 2, tiles := cursor.tiles.next.2 }

/-- A loop in the given one. -/
def loop (cursor : Cursor) (scope : Node) (extent : Value) : Node :=
  ⟨cursor.next, scope.tag.bind (.bound cursor.coords.next.1), some scope.id, true,
    .loop .nested cursor.coords.next.1 (some extent)⟩

/-- The cursor after a loop. -/
def afterLoop (cursor : Cursor) : Cursor :=
  { cursor with next := cursor.next + 1, coords := cursor.coords.next.2 }

/-- An invocation of a step in the given loop. -/
def step (cursor : Cursor) (scope : Node) (d : StepDefinition) (number : StepId)
    (tag : Coordinate) (args : List Argument) : Node :=
  ⟨cursor.next, tag, some scope.id, true,
    .step d number (Argument.handles args) d.outputs⟩

/-- The cursor after an invocation of a step. -/
def afterStep (cursor : Cursor) (registry : Registry) : Cursor :=
  { cursor with next := cursor.next + 1, registry := registry }

end Cursor

/-- A meaning: trees for every cursor, with the cursor after them. -/
abbrev Meaning := Cursor → Option (List Tree × Cursor)

/-- What a program contributes to the body of the given loop, given what steps contribute. A loop
contributes one tree, with the contribution of its body below it. A launch has no place there. -/
def Program.contribution (invoke : Node → StepDefinition → List Argument → Meaning) (scope : Node) :
    Program → Meaning
  | done => fun cursor => some ([], cursor)
  | fail _ => fun _ => none
  | launch _ _ _ => fun _ => none
  | loop extent body rest => fun cursor => do
      let loop := cursor.loop scope extent
      let (inner, after) ←
        (body cursor.coords.next.1).contribution invoke loop cursor.afterLoop
      let (others, last) ← rest.contribution invoke scope after
      return (.node loop inner :: others, last)
  | call step args rest => fun cursor => do
      let (trees, after) ← invoke scope step args cursor
      let (others, last) ← rest.contribution invoke scope after
      return (trees ++ others, last)

/-- What an invocation of a step contributes to the body of the given loop: the step, and after it
the contribution of its function. -/
def Functions.contribution (functions : Functions) :
    Nat → Node → StepDefinition → List Argument → Meaning
  | 0, _, _, _ => fun _ => none
  | depth + 1, scope, d, args => fun cursor => do
      guard (args.length = d.parameters.length)
      let tag ← d.tagOf args
      let .ok (number, registry) := cursor.registry.bind d d.requestedId | none
      let (inner, after) ← (functions d.function args).contribution (functions.contribution depth)
        scope (cursor.afterStep registry)
      return (.node (cursor.step scope d number tag args) [] :: inner, after)

/-- The kernels of a program, given what steps contribute. A launch is a kernel with a grid loop,
which has the contribution of the body below it. Loops and steps have no place outside of
launches. -/
def Program.kernels (invoke : Node → StepDefinition → List Argument → Meaning) :
    Program → Meaning
  | done => fun cursor => some ([], cursor)
  | fail _ => fun _ => none
  | launch kernel body rest => fun cursor => do
      let grid := cursor.grid kernel
      let (inner, after) ←
        (body cursor.tiles.next.1).contribution invoke grid cursor.afterGrid
      let (others, last) ← rest.kernels invoke after
      return (.node (cursor.kernel kernel) [.node grid inner] :: others, last)
  | loop _ _ _ => fun _ => none
  | call _ _ _ => fun _ => none

/-- The cursor at the end of a context. -/
def Context.cursor (c : Context) : Cursor :=
  ⟨c.size, c.tiles, c.coords, c.registry⟩

end TileTrace
