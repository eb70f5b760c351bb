import TileTrace.Session.State

/-!
# Commands of a session

This module says what each action without a body does. The parts of a command
are built in the order in which the command lists them, and the first part that
is refused is the error of the command.
-/

namespace TileTrace.Session

/-- Refuse a null reference for an activity. -/
def required (activity : String) : Option NodeRef → Run NodeRef
  | some ref => pure ref
  | none => throw (.nullNode activity)

/-- The context and the tree of a node. -/
def treeOf (ref : NodeRef) : Run Tree := do
  let c ← liftM (Trace.context ref.home)
  match c.tree? ref.node.id with
  | some tree => return tree
  | none => throw (.unknownName "node")

/-- What a view shows of a node. -/
def view (node : Option NodeRef) : NodeView → Run Answer
  | .description => do
      let ref ← required "describe" node
      let c ← liftM (Trace.context ref.home)
      return .description ref.node (c.children ref.node.id)
  | .kernelName => do
      let ref ← required "read" node
      return .text (← liftM (Trace.ofExcept ref.node.kernelName))
  | .induction => do
      let ref ← required "read" node
      return .text (← liftM (Trace.ofExcept ref.node.induction)).text
  | .definitionId => do
      let ref ← required "read" node
      return .stepId (← liftM (Trace.ofExcept ref.node.definitionId))
  | .name => do
      let ref ← required "read" node
      return .text (← liftM (Trace.ofExcept ref.node.name))
  | .stream =>
      match node with
      | some ref => return .text ref.node.text
      | none => return .text "<null>"
  | .lines => do
      let tree ← treeOf (← required "dump" node)
      return .texts tree.lines
  | .collected => do
      let tree ← treeOf (← required "traverse" node)
      return .numbers (tree.toList.map (·.id))
  | .stepsOf key => do
      let d ← definition key
      let tree ← treeOf (← required "traverse" node)
      return .numbers ((tree.stepsOf d).map (·.id))
  | .depth => do
      let ref ← required "compute the depth of" node
      let c ← liftM (Trace.context ref.home)
      return .number (c.depthOf ref.node)
  | .label => do
      let ref ← required "label" node
      return .text ref.node.label
  | .diagram => do
      let tree ← treeOf (← required "flatten" node)
      return .diagram (Diagram.flatten tree)
  | .dot => do
      let tree ← treeOf (← required "flatten" node)
      return .text (Diagram.flatten tree).dot
  | .writeDot path => do
      let tree ← treeOf (← required "flatten" node)
      liftM (Trace.writeDiagram tree path)
      return .nothing

/-- Declare a step and keep its definition under a key. -/
def declare (frame : Frame) (key : String) (declaration : Declaration) : Run Unit := do
  let source ← match declaration.source with
    | .literal tag => do pure (TagSource.literal (← coordinate frame tag))
    | .parameter name => pure (TagSource.parameter name)
  let d ← liftM (Trace.ofExcept (StepDefinition.declare (← get).declared declaration.name
    declaration.function declaration.parameters source declaration.outputs
    declaration.requestedId))
  modify fun session => { session with
    declared := session.declared + 1
    definitions := (key, d) :: session.definitions }

/-- Make a guard. -/
def makeGuard : GuardTerm → Run Guard
  | .context none => liftM (Guard.enterContext none)
  | .context (some number) => do
      let id ← contextId number
      liftM (Guard.enterContext (some id))
  | .recording number => do
      let id ← contextId number
      liftM (Guard.record id)
  | .mode mode => liftM (Guard.setMode mode)
  | .dumpOptions => liftM Guard.saveDumpOptions
  | .disableOptions => liftM Guard.saveDisableOptions
  | .stream => do
      let number := (← get).buffers
      modify fun session => { session with buffers := number + 1 }
      liftM (Guard.redirect (.buffer number))

/-- The first entry with a label, and the entries without it. -/
def takeFirst {α : Type} (label : String) : List (String × α) → Option (α × List (String × α))
  | [] => none
  | (name, a) :: rest =>
      if name = label then some (a, rest)
      else (takeFirst label rest).map fun (found, others) => (found, (name, a) :: others)

/-- End the latest living guard with a label. -/
def endGuard (label : String) : Run Unit := do
  match takeFirst label (← get).guards with
  | some (guard, others) =>
      modify fun session => { session with guards := others }
      liftM guard.leave
  | none => throw (.unknownName label)

/-- What an action on an option answers, and the options after it. -/
def OptionAction.apply {ι : Type} [DecidableEq ι] (options : Options ι) (option : ι) :
    OptionAction → Except Error (Answer × Options ι)
  | .set arguments => .ok (.nothing, options.set option arguments)
  | .unset => .ok (.nothing, options.unset option)
  | .has => .ok (.flag (options.has option), options)
  | .args => return (.texts (← options.args option), options)
  | .hasArg arg => .ok (.flag (options.hasArg option arg), options)

/-- The option of a family with the given name. -/
def named {ι : Type} (family : OptionFamily ι) (name : String) : Run ι :=
  match family.named? name with
  | some option => pure option
  | none => throw (.unknownName name)

/-- Act on an active option. -/
def actOnOption (kind : OptionKind) (name : String) (action : OptionAction) : Run Answer :=
  match kind with
  | .dump => do
      let option ← named DumpOption.family name
      let (answer, options) ← liftM (Trace.ofExcept (action.apply (← get).world.dump option))
      modify fun session => { session with world := { session.world with dump := options } }
      return answer
  | .disable => do
      let option ← named DisableOption.family name
      let (answer, options) ← liftM (Trace.ofExcept (action.apply (← get).world.disable option))
      modify fun session => { session with world := { session.world with disable := options } }
      return answer

/-- The options that an environment enables, by name. -/
def parsed (kind : OptionKind) (environment : Environment) :
    Except Error (List (String × List String)) :=
  match kind with
  | .dump => do
      let options ← Options.fromEnvironment DumpOption.family environment
      return options.toList DumpOption.family
  | .disable => do
      let options ← Options.fromEnvironment DisableOption.family environment
      return options.toList DisableOption.family

/-- The setting of a family of options. -/
def OptionKind.setting : OptionKind → String
  | dump => DumpOption.family.setting
  | disable => DisableOption.family.setting

/-- Set the environment variable of a family of options. -/
def setEnvironment (kind : OptionKind) (text : Option String) : Run Environment := do
  let environment := (← get).world.environment.withSetting kind.setting text
  modify fun session =>
    { session with world := { session.world with environment := environment } }
  return environment

/-- Replace the active options of a family by those that the environment enables. -/
def loadOptions (kind : OptionKind) (environment : Environment) : Run Unit :=
  match kind with
  | .dump => do
      let options ← liftM (Trace.ofExcept (Options.fromEnvironment DumpOption.family environment))
      modify fun session => { session with world := { session.world with dump := options } }
  | .disable => do
      let options ←
        liftM (Trace.ofExcept (Options.fromEnvironment DisableOption.family environment))
      modify fun session => { session with world := { session.world with disable := options } }

/-- Carry out a command. -/
def perform (frame : Frame) : Command → Run Answer
  | .createContext number => do
      let earlier := (← get).numbers.lookup number
      let id ← liftM Trace.createContext
      modify fun session => { session with
        numbers := (number, id) :: session.numbers.filter (·.1 ≠ number) }
      match earlier with
      | some replaced => liftM (Trace.destroyContext replaced)
      | none => pure ()
      return .nothing
  | .destroyContext number => do
      let id ← contextId number
      liftM (Trace.destroyContext id)
      modify fun session => { session with numbers := session.numbers.filter (·.1 ≠ number) }
      return .nothing
  | .enter number => do
      let id ← contextId number
      liftM (Trace.enter id)
      return .nothing
  | .exit number => do
      let id ← contextId number
      liftM (Trace.exit id)
      return .nothing
  | .openKernel number name template extent => do
      let id ← contextId number
      let template ← coordinate frame template
      let extent ← optionalValue frame extent
      let (kernel, _) ← liftM (Trace.openKernel id name template extent)
      return .text kernel.text
  | .openLoop number extent => do
      let id ← contextId number
      let extent ← optionalValue frame extent
      let loop ← liftM (Trace.openLoop id extent)
      return .text loop.text
  | .closeLoop number => do
      let id ← contextId number
      liftM (Trace.closeLoop id)
      return .nothing
  | .closeKernel number => do
      let id ← contextId number
      let kernel ← liftM (Trace.closeKernel id)
      return .text kernel.text
  | .record number key tag requested inputs => do
      let id ← contextId number
      let d ← definition key
      let tag ← coordinate frame tag
      let step ← liftM (Trace.recordStep id d tag requested inputs)
      return .recorded step.text (← liftM (Trace.ofExcept step.definitionId))
  | .addInput number handle => do
      let id ← contextId number
      liftM (Trace.addKernelInput id handle)
      return .nothing
  | .addOutput number handle => do
      let id ← contextId number
      liftM (Trace.addKernelOutput id handle)
      return .nothing
  | .setVisualize number node visualize => do
      let id ← contextId number
      let ref ← nodeRef node
      liftM (Trace.setVisualize id ref visualize)
      return .nothing
  | .register number node => do
      let id ← contextId number
      let ref ← nodeRef node
      return .number (← liftM (Trace.register id ref))
  | .currentTag number => do
      let c ← liftM (Trace.context (← contextId number))
      let tag ← liftM (Trace.ofExcept c.currentTag)
      return .text tag.text
  | .kernels number => do
      let c ← liftM (Trace.context (← contextId number))
      return .numbers c.kernels
  | .stepId number key => do
      let c ← liftM (Trace.context (← contextId number))
      let d ← definition key
      return .optionalStepId (c.stepId? d)
  | .stepDefinition number id => do
      let c ← liftM (Trace.context (← contextId number))
      return .optionalText ((c.stepDefinition? id).map StepDefinition.text)
  | .contextText number => do
      let c ← liftM (Trace.context (← contextId number))
      return .contextText c.text
  | .view node shown => do
      let ref ← nodeRef node
      view ref shown
  | .declare key declaration => do
      declare frame key declaration
      return .nothing
  | .definition key => return .definition (← definition key)
  | .resolveTag key args => do
      let d ← definition key
      let args ← args.mapM (argument frame)
      let tag ← liftM (Trace.ofExcept (d.resolveTag args))
      return .text tag.text
  | .inputsOf key args => do
      let _ ← definition key
      let args ← args.mapM (argument frame)
      return .texts (StepDefinition.inputsOf args)
  | .see term => return .text (← coordinate frame term).text
  | .guard label term => do
      let guard ← makeGuard term
      modify fun session => { session with guards := (label, guard) :: session.guards }
      return .nothing
  | .unguard label => do
      endGuard label
      return .nothing
  | .debug text => do
      liftM (Trace.print text)
      return .nothing
  | .option kind name action => actOnOption kind name action
  | .namesRecording name => return .flag (DisableOption.family.named? name = some .recording)
  | .parseOptions kind text => do
      let environment ← setEnvironment kind text
      return .options (← liftM (Trace.ofExcept (parsed kind environment)))
  | .loadOptions kind text => do
      let environment ← setEnvironment kind text
      loadOptions kind environment
      return .nothing

end TileTrace.Session
