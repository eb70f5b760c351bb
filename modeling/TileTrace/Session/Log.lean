import TileTrace.Session.Action

/-!
# The log of a session

Every finished action of a session leaves an entry in the log: its answer or the
error that ended it, a snapshot of the thread and the contexts, and what was
printed and written since the entry before. The start of a step function leaves
an entry of its own.
-/

namespace TileTrace.Session

/-- What an action answers. -/
inductive Answer where
  | nothing
  | text (text : String)
  | texts (texts : List String)
  | optionalText (text : Option String)
  | flag (flag : Bool)
  | number (number : Nat)
  | numbers (numbers : List Nat)
  | stepId (id : StepId)
  | optionalStepId (id : Option StepId)
  | recorded (text : String) (id : StepId)
  | contextText (text : String)
  | description (node : Node) (children : List NodeId)
  | diagram (diagram : Diagram)
  | definition (definition : StepDefinition)
  | options (options : List (String × List String))

/-- A context in a snapshot. -/
structure ContextSummary where
  number : ContextNumber
  state : ScopeState
  loopDepth : Nat
  scope : Option Scope
  size : Nat
  deriving DecidableEq, Repr, Inhabited

/-- The running thread and the living contexts. -/
structure Snapshot where
  current : Option ContextNumber
  depth : Nat
  mode : Mode
  recording : Bool
  contexts : List ContextSummary
  deriving DecidableEq, Repr, Inhabited

/-- An entry of the log. -/
inductive Entry where
  /-- A step function starts. -/
  | called (function : FunctionId) (args : List Argument)
  /-- An action is finished. -/
  | done (label : String) (result : Except Error Answer) (snapshot : Snapshot)
      (printed : List (Nat × String)) (files : List (String × String))

/-- What was printed, buffer by buffer. Buffers that nothing was printed to are left out. -/
def byBuffer (buffers : Nat) (printed : List (Nat × String)) : List (Nat × String) :=
  (List.range buffers).filterMap fun number =>
    let text := String.join ((printed.filter (·.1 = number)).map (·.2))
    if text.isEmpty then none else some (number, text)

end TileTrace.Session
