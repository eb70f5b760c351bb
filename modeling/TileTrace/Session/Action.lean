import TileTrace.Coordinate.Term
import TileTrace.FrontEnd

/-!
# The language of sessions

A session is a script of actions on contexts, nodes, step definitions, options,
and guards, all known by names or numbers that the script chooses. Actions with
a body run other actions: launches, loops, threads, and the functions of steps.
-/

namespace TileTrace.Session

/-- The number by which a script knows a context. -/
abbrev ContextNumber := Int

/-- A node as a script refers to it. -/
inductive NodeTerm where
  | null
  | node (context : ContextNumber) (id : Int)
  deriving Repr, Inhabited

/-- An argument of a step as a script writes it. -/
inductive ArgumentTerm where
  | handle (name : Handle)
  | coordinate (term : Coordinate.Term)
  /-- An argument of the step function that is running, as it is. -/
  | pass (position : Nat)
  deriving Repr, Inhabited

/-- A tag source as a script writes it. -/
inductive TagSourceTerm where
  | literal (tag : Coordinate.Term)
  | parameter (name : String)
  deriving Repr, Inhabited

/-- A declaration of a step. -/
structure Declaration where
  name : String
  function : Option FunctionId
  parameters : List String
  source : TagSourceTerm
  outputs : List Handle
  requestedId : Option StepId

/-- What to read from a node. -/
inductive NodeView where
  | description
  | kernelName
  | induction
  | definitionId
  | name
  | stream
  | lines
  | collected
  | stepsOf (definition : String)
  | depth
  | label
  | diagram
  | dot
  | writeDot (path : String)
  deriving Repr, Inhabited

/-- The guards that a script can make. -/
inductive GuardTerm where
  | context (context : Option ContextNumber)
  | recording (context : ContextNumber)
  | mode (mode : Mode)
  | dumpOptions
  | disableOptions
  | stream
  deriving Repr, Inhabited

/-- The families of options. -/
inductive OptionKind where
  | dump
  | disable
  deriving DecidableEq, Repr, Inhabited

/-- What to do with one option. -/
inductive OptionAction where
  | set (args : List String)
  | unset
  | has
  | args
  | hasArg (arg : String)
  deriving Repr, Inhabited

/-- An action without a body. -/
inductive Command where
  | createContext (context : ContextNumber)
  | destroyContext (context : ContextNumber)
  | enter (context : ContextNumber)
  | exit (context : ContextNumber)
  | openKernel (context : ContextNumber) (name : String) (template : Coordinate.Term)
      (extent : Option Value.Term)
  | openLoop (context : ContextNumber) (extent : Option Value.Term)
  | closeLoop (context : ContextNumber)
  | closeKernel (context : ContextNumber)
  | record (context : ContextNumber) (definition : String) (tag : Coordinate.Term)
      (requested : Option StepId) (inputs : List Handle)
  | addInput (context : ContextNumber) (handle : Handle)
  | addOutput (context : ContextNumber) (handle : Handle)
  | setVisualize (context : ContextNumber) (node : NodeTerm) (visualize : Bool)
  | register (context : ContextNumber) (node : NodeTerm)
  | currentTag (context : ContextNumber)
  | kernels (context : ContextNumber)
  | stepId (context : ContextNumber) (definition : String)
  | stepDefinition (context : ContextNumber) (id : StepId)
  | contextText (context : ContextNumber)
  | view (node : NodeTerm) (view : NodeView)
  | declare (key : String) (declaration : Declaration)
  | definition (key : String)
  | resolveTag (key : String) (args : List ArgumentTerm)
  | inputsOf (key : String) (args : List ArgumentTerm)
  | see (coordinate : Coordinate.Term)
  | guard (label : String) (guard : GuardTerm)
  | unguard (label : String)
  | debug (text : String)
  | option (kind : OptionKind) (name : String) (action : OptionAction)
  | namesRecording (name : String)
  | parseOptions (kind : OptionKind) (text : Option String)
  | loadOptions (kind : OptionKind) (text : Option String)

/-- A kernel launch as a script writes it. -/
structure LaunchTerm where
  name : String
  grid : Value.Term
  template : Coordinate.Term
  inputs : List Handle
  outputs : List Handle

/-- An action. A body lists actions with the labels of their log entries. -/
inductive Action where
  | command (command : Command)
  | define (function : FunctionId) (body : List (String × Action))
  | call (definition : String) (args : List ArgumentTerm)
  | launch (launch : LaunchTerm) (block : String) (body : List (String × Action))
  | loop (extent : Value.Term) (index : String) (body : List (String × Action))
  | attempt (body : List (String × Action))
  | thread (body : List (String × Action))

/-- A list of labelled actions. -/
abbrev Script := List (String × Action)

end TileTrace.Session
