import TileTrace.World

/-!
# Guards

A guard changes the state of the thread that makes it, or the active options,
and takes the change back when it ends. A guard of a context ends by removing
the innermost entry of its context, wherever that entry is. All other changes
end by restoring what was saved, whatever happened in between.
-/

namespace TileTrace

/-- A living guard, with what it restores. -/
inductive Guard where
  /-- Has made a context active. -/
  | context (id : ContextId)
  /-- Has made a context active and turned recording on. -/
  | recording (id : ContextId) (saved : Mode)
  /-- Has set the execution mode. -/
  | mode (saved : Mode)
  /-- Has opened the dump options for changes. -/
  | dumpOptions (saved : Options DumpOption)
  /-- Has opened the disable options for changes. -/
  | disableOptions (saved : Options DisableOption)
  /-- Has redirected print-outs. -/
  | stream (saved : Stream)
  deriving Inhabited

namespace Guard

/-- Guard a context, which has to be there. -/
def enterContext (id : Option ContextId) : Trace Guard :=
  match id with
  | none => throw .guardWithoutContext
  | some id => do
      Trace.enter id
      return context id

/-- Guard a mode. -/
def setMode (mode : Mode) : Trace Guard := do
  let saved := (← get).thread.mode
  Trace.modifyThread ({ · with mode := mode })
  return Guard.mode saved

/-- Guard the recording into a context. -/
def record (id : ContextId) : Trace Guard := do
  let saved := (← get).thread.mode
  Trace.enter id
  Trace.modifyThread ({ · with mode := .recording })
  return recording id saved

/-- Guard the dump options. -/
def saveDumpOptions : Trace Guard := do
  return dumpOptions (← get).dump

/-- Guard the disable options. -/
def saveDisableOptions : Trace Guard := do
  return disableOptions (← get).disable

/-- Guard the stream for print-outs. -/
def redirect (stream : Stream) : Trace Guard := do
  let saved := (← get).thread.stream
  Trace.modifyThread ({ · with stream := stream })
  return Guard.stream saved

/-- End a guard. -/
def leave (guard : Guard) : Trace Unit :=
  match guard with
  | context id => Trace.modifyThread (·.forget id)
  | recording id saved => Trace.modifyThread fun thread =>
      { thread.forget id with mode := saved }
  | mode saved => Trace.modifyThread ({ · with mode := saved })
  | dumpOptions saved => modify ({ · with dump := saved })
  | disableOptions saved => modify ({ · with disable := saved })
  | stream saved => Trace.modifyThread ({ · with stream := saved })

end Guard

end TileTrace
