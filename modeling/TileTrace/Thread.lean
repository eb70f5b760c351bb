import TileTrace.Context

/-!
# Threads

A thread has a stack of active contexts, an execution mode, and a stream for
print-outs. Recorded nodes go to the innermost active context.
-/

namespace TileTrace

/-- How programs run: once for every index, or once for the record. -/
inductive Mode where
  | normal
  | recording
  deriving DecidableEq, Repr, Inhabited

/-- Where print-outs go: to the console, which is not kept, or to a numbered buffer. -/
inductive Stream where
  | console
  | buffer (number : Nat)
  deriving DecidableEq, Repr, Inhabited

/-- The state of a thread. -/
structure Thread where
  id : ThreadId := 0
  /-- The active contexts, innermost first. -/
  active : List ContextId := []
  mode : Mode := .normal
  stream : Stream := .console
  deriving DecidableEq, Repr, Inhabited

namespace Thread

/-- The innermost active context. -/
def current (thread : Thread) : Option ContextId :=
  thread.active.head?

/-- Make a context the innermost active one. -/
def enter (thread : Thread) (context : ContextId) : Thread :=
  { thread with active := context :: thread.active }

/-- Leave the innermost active context, which has to be the given one. -/
def exit (thread : Thread) (context : ContextId) : Except Error Thread :=
  match thread.active with
  | innermost :: outer =>
      if innermost = context then .ok { thread with active := outer }
      else .error .exitNotInnermost
  | [] => .error .exitNotInnermost

/-- Remove the innermost entry of a context, if there is one. -/
def forget (thread : Thread) (context : ContextId) : Thread :=
  { thread with active := thread.active.erase context }

/-- A thread started by this one. Threads run one at a time and end before the thread that started
them goes on, so the number of a thread that has ended is free again. -/
def child (thread : Thread) : Thread :=
  { id := thread.id + 1 }

end Thread

end TileTrace
