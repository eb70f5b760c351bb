import TileTrace.Decimal
import TileTrace.Operator

/-!
# Errors

An error is a cause together with the data that its message shows. `Error.kind`
sorts the causes into the classes that callers tell apart, and `Error.message`
is the one place where messages are worded.
-/

namespace TileTrace

/-- The classes of errors that callers tell apart. -/
inductive ErrorKind where
  /-- A wrong argument or a wrong moment. -/
  | check
  /-- A broken assumption inside the library. -/
  | internal
  /-- A scope that is not open, or not the one to close. -/
  | scope
  /-- A kernel opened inside a kernel. -/
  | nestedKernel
  /-- A node registered twice. -/
  | duplicateNode
  /-- A step definition bound to two numbers, or two definitions to one. -/
  | duplicateStepDefinition
  /-- A name that is looked up in vain. -/
  | lookupFailure
  /-- An argument position beyond the argument list. -/
  | outOfRange
  /-- A request that names nothing the session knows. -/
  | request
  deriving DecidableEq, Repr, Inhabited

/-- The causes of errors. -/
inductive Error where
  -- values
  | emptySymbolName
  | divisionByZero (dividend : String) (op : Operator)
  | notConcrete (value : String)
  | notSymbol (value : String)
  | notBinary (value : String)
  | notNegation (value : String)
  -- expression trees
  | operandCount (expected found : Nat)
  | unknownOperator (symbol : String)
  -- coordinates
  | coordinateIndex (index : Int) (coordinate : String) (rank : Nat)
  | notBound (coordinate : String)
  | notComposite (coordinate : String)
  | noUnboundSlot (coordinate : String)
  -- options
  | unknownOption (source name : String) (available : List String)
  | unclosedArguments (source name : String)
  | textAfterArguments (source name : String)
  | optionNotSet
  -- step definitions
  | stepWithoutFunction (step : String)
  | tagNotParameter (tag step : String) (parameters : List String)
  | literalTagSource
  | parameterTagSource (parameter : String)
  | argumentCount (step : String) (found expected : Nat)
  | tagArgumentMissing
  | tagArgumentNotCoordinate (step parameter handle : String)
  -- nodes
  | nodeIndex (id : Int) (size : Nat)
  | nodeKind (expected found : String)
  | loopHasNoName
  | nullNode (activity : String)
  | nullRegistered
  | nullModified
  | alreadyRegistered (node : String)
  | notInOpenKernel (node : String)
  -- scopes
  | foreignThread
  | kernelInsideKernel (outer inner : String)
  | loopOutsideKernel
  | noLoopToClose
  | closeLoopOnGrid (kernel : String)
  | loopWithoutScope (loop : String)
  | stepOutsideKernel (step : String)
  | noScopeToAppend (node : String)
  | noKernelToClose
  | closeKernelInLoop (kernel scope : String)
  | noKernelForInput (handle : String)
  | noKernelForOutput (handle : String)
  | noOpenScope
  -- bindings of step definitions
  | functionTaken (step holder : String) (id : Int)
  | boundElsewhere (step : String) (id requested : Int)
  | stepIdTaken (id : Int) (holder : String)
  | negativeStepId (id : Int)
  -- active contexts, guards, and tracing
  | exitNotInnermost
  | guardWithoutContext
  | extentNotConcrete (what extent : String)
  | diagramFile (path : String)
  -- sessions
  | unknownName (what : String)
  | tooDeep
  deriving DecidableEq, Repr, Inhabited

namespace Error

/-- The class of an error. -/
def kind : Error → ErrorKind
  | notConcrete _ | notSymbol _ | notBinary _ | notNegation _ | operandCount _ _
  | unknownOperator _ | notBound _ | notComposite _ | noUnboundSlot _ | optionNotSet
  | literalTagSource | parameterTagSource _ | nodeKind _ _ | loopHasNoName | nullRegistered
  | nullModified | noScopeToAppend _ => .internal
  | loopOutsideKernel | noLoopToClose | closeLoopOnGrid _ | loopWithoutScope _
  | stepOutsideKernel _ | noKernelToClose | closeKernelInLoop _ _ | noKernelForInput _
  | noKernelForOutput _ | noOpenScope => .scope
  | kernelInsideKernel _ _ => .nestedKernel
  | alreadyRegistered _ => .duplicateNode
  | functionTaken _ _ _ | boundElsewhere _ _ _ | stepIdTaken _ _ => .duplicateStepDefinition
  | tagNotParameter _ _ _ => .lookupFailure
  | tagArgumentMissing => .outOfRange
  | unknownName _ | tooDeep => .request
  | _ => .check

/-- A list of texts in one line. -/
private def listed (texts : List String) : String :=
  String.intercalate ", " texts

/-- The message of an error. -/
def message : Error → String
  | emptySymbolName => "A symbol needs a non-empty name"
  | divisionByZero dividend op => "Division by zero in " ++ dividend ++ " " ++ op.symbol ++ " 0"
  | notConcrete value => "Not a concrete value: " ++ value
  | notSymbol value => "Not a symbol: " ++ value
  | notBinary value => "Not a binary expression: " ++ value
  | notNegation value => "Not a negation: " ++ value
  | operandCount expected found =>
      "Expected tree.operands.size() == " ++ Decimal.ofNat expected ++ ", but found " ++
        Decimal.ofNat found ++ " vs " ++ Decimal.ofNat expected ++ ". "
  | unknownOperator symbol => "Unknown binary operator: " ++ symbol
  | coordinateIndex index coordinate rank =>
      "Index " ++ Decimal.ofInt index ++ " out of range for coordinate " ++ coordinate ++
        " of rank " ++ Decimal.ofNat rank
  | notBound coordinate => "Not a bound coordinate: " ++ coordinate
  | notComposite coordinate => "Not a composite coordinate: " ++ coordinate
  | noUnboundSlot coordinate => "Expected an unbound slot in " ++ coordinate
  | unknownOption source name available =>
      "Parsing " ++ source ++ " failed. Invalid option: '" ++ name ++
        "'\nAvailable options: " ++ listed available
  | unclosedArguments source name =>
      "Parsing " ++ source ++ " failed when parsing arguments for " ++ name ++
        ". Syntax error: unclosed '('"
  | textAfterArguments source name =>
      "Parsing " ++ source ++ " failed when parsing arguments for " ++ name ++
        ". Syntax error: expect a ',' after ')'"
  | optionNotSet => "Option not set"
  | stepWithoutFunction step => "Step " ++ step ++ " has no function"
  | tagNotParameter tag step parameters =>
      "Tag " ++ tag ++ " is not a parameter of step " ++ step ++ ". Parameters: " ++
        listed parameters
  | literalTagSource => "Tag source is a literal tag"
  | parameterTagSource parameter => "Tag source is a parameter: " ++ parameter
  | argumentCount step found expected =>
      "Expected args.size() == parameters_.size(), but found " ++ Decimal.ofNat found ++ " vs " ++
        Decimal.ofNat expected ++ ". Wrong number of arguments for step " ++ step
  | tagArgumentMissing => ""
  | tagArgumentNotCoordinate step parameter handle =>
      "Step " ++ step ++ " takes its tag from parameter " ++ parameter ++
        ", which must be passed a coordinate but got handle " ++ handle
  | nodeIndex id size =>
      "Node id " ++ Decimal.ofInt id ++ " out of range, the context has " ++
        Decimal.ofNat size ++ " nodes"
  | nodeKind expected found => "Expected a " ++ expected ++ " but got a " ++ found
  | loopHasNoName => "Loops have no name"
  | nullNode activity => "Cannot " ++ activity ++ " a null node"
  | nullRegistered => "Cannot register a null node"
  | nullModified => "Cannot modify a null node"
  | alreadyRegistered node =>
      "Node id is already set for " ++ node ++ ". Duplicated node registration."
  | notInOpenKernel node =>
      "Only nodes of the open kernel can be modified, but " ++ node ++ " is not one of them"
  | foreignThread =>
      "GraphContext is owned by thread # and cannot be modified from thread #"
  | kernelInsideKernel outer inner =>
      "Already in kernel " ++ outer ++ ". Can't launch kernel " ++ inner ++ " within a kernel."
  | loopOutsideKernel => "Cannot open a loop outside of a kernel"
  | noLoopToClose => "No open kernel, so no loop to close"
  | closeLoopOnGrid kernel =>
      "Cannot close the grid loop of kernel " ++ kernel ++
        " with closeLoop; close the kernel instead"
  | loopWithoutScope loop => "Loop " ++ loop ++ " has no enclosing scope"
  | stepOutsideKernel step => "Step " ++ step ++ " invoked outside of a kernel"
  | noScopeToAppend node => "No scope to append " ++ node ++ " to"
  | noKernelToClose => "No open kernel to close"
  | closeKernelInLoop kernel scope =>
      "Kernel " ++ kernel ++ " can only be closed from its grid loop, but the current scope is " ++
        scope
  | noKernelForInput handle => "No open kernel to add input " ++ handle
  | noKernelForOutput handle => "No open kernel to add output " ++ handle
  | noOpenScope => "No open scope"
  | functionTaken step holder id =>
      "Function of step " ++ step ++ " is already registered for " ++ holder ++ " as step id=" ++
        Decimal.ofInt id
  | boundElsewhere step id requested =>
      "Step " ++ step ++ " is registered as step id=" ++ Decimal.ofInt id ++ " but step id=" ++
        Decimal.ofInt requested ++ " was requested"
  | stepIdTaken id holder =>
      "Duplicated step id: step id=" ++ Decimal.ofInt id ++ " is already registered for " ++ holder
  | negativeStepId id => "Step ids must be non-negative, but got " ++ Decimal.ofInt id
  | exitNotInnermost => "Exiting a GraphContext that is not the innermost active context"
  | guardWithoutContext => "GraphGuard needs a context"
  | extentNotConcrete what extent =>
      "The " ++ what ++ " must be concrete when not recording, but got " ++ extent
  | diagramFile path => "Failed to open the diagram file " ++ path
  | unknownName what => "Nothing is known by the name " ++ what
  | tooDeep => "The session nests too deeply"

end Error

end TileTrace
