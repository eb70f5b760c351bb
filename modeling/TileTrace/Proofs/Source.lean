import TileTrace.Proofs.Program
import TileTrace.Proofs.Substitution

/-!
# Source programs

A source program is written down: its grid sizes, extents, and arguments are
terms over the variables in force. These are the indices of the launches and
loops around, and in the function of a step the values that it reads from its
arguments. `Source.program` gives the program, which depends on its indices
through the terms only.
-/

namespace TileTrace

open Session (Frame LaunchTerm ArgumentTerm)

/-! ## Terms without reserved symbols -/

namespace Session

/-- The term has no reserved symbol. -/
def ArgumentTerm.Plain : ArgumentTerm → Prop
  | .handle _ => True
  | .coordinate term => term.Plain
  | .pass _ => True

/-- The term has no reserved symbol. -/
def LaunchTerm.Plain (term : LaunchTerm) : Prop :=
  term.grid.Plain ∧ term.template.Plain

end Session

/-! ## Programs -/

/-- A program as it is written. -/
inductive Source where
  | done
  | launch (term : LaunchTerm) (block : String) (body rest : Source)
  | loop (extent : Value.Term) (index : String) (body rest : Source)
  | call (step : StepDefinition) (args : List ArgumentTerm) (rest : Source)

namespace Source

/-- The program in a frame. -/
def program (frame : Frame) : Source → Program
  | done => .done
  | launch term block body rest =>
      match term.build frame with
      | .ok kernel =>
          .launch kernel (fun value => body.program (frame.bind block value)) (rest.program frame)
      | .error e => .fail e
  | loop extent index body rest =>
      match extent.build frame.bindings with
      | .ok extent =>
          .loop extent (fun value => body.program (frame.bind index value)) (rest.program frame)
      | .error e => .fail e
  | call step args rest =>
      match args.mapM (·.build frame) with
      | .ok args => .call step args (rest.program frame)
      | .error e => .fail e

/-- The terms and the fixed tags of the program have no reserved symbols. -/
def Plain : Source → Prop
  | done => True
  | launch term _ body rest => term.Plain ∧ body.Plain ∧ rest.Plain
  | loop extent _ body rest => extent.Plain ∧ body.Plain ∧ rest.Plain
  | call step args rest => step.Plain ∧ (∀ arg ∈ args, arg.Plain) ∧ rest.Plain

end Source

/-- A variable of a step function: the value that is found in the coordinate passed for a position,
along a path of elements. -/
structure Read where
  name : String
  position : Nat
  path : List Int

/-- The value of a variable of a step function. -/
def Read.value (read : Read) (args : List Argument) : Except Error Value := do
  match args[read.position]?.bind Argument.coordinate? with
  | none => throw (.unknownName "argument")
  | some c => (← read.path.foldlM Coordinate.element c).value

/-- A step function as it is written. -/
structure Routine where
  reads : List Read
  body : Source

/-- The frame of a step function that is called with the given arguments. -/
def Routine.frame (routine : Routine) (args : List Argument) : Except Error Frame := do
  let bindings ← routine.reads.mapM fun read => return (read.name, ← read.value args)
  return ⟨bindings, args⟩

/-- The step functions. -/
abbrev Routines := FunctionId → Routine

namespace Routines

/-- The programs of step functions. -/
def functions (routines : Routines) : Functions := fun function args =>
  match (routines function).frame args with
  | .ok frame => (routines function).body.program frame
  | .error e => .fail e

theorem functions_apply (routines : Routines) (function : FunctionId) (args : List Argument) :
    routines.functions function args =
      match (routines function).frame args with
      | .ok frame => (routines function).body.program frame
      | .error e => .fail e := rfl

/-- The step functions have no reserved symbols. -/
def Plain (routines : Routines) : Prop :=
  ∀ function, (routines function).body.Plain

end Routines

/-! ## Frames that agree -/

/-- Frames with and without symbols, where replacing symbols turns the first into the second. -/
structure Session.Frame.Agrees (σ : Value.Bindings) (recorded normal : Frame) : Prop where
  bindings : Value.Bindings.Agree σ recorded.bindings normal.bindings
  args : Argument.AllAgree σ recorded.args normal.args

/-- Coordinates passed for the same position agree. -/
theorem Argument.AllAgree.coordinate? {σ : Value.Bindings} {args args' : List Argument}
    (h : Argument.AllAgree σ args args') {position : Nat} {c c' : Coordinate}
    (hc : args[position]?.bind Argument.coordinate? = some c)
    (hc' : args'[position]?.bind Argument.coordinate? = some c') : c.substitute σ = some c' := by
  obtain ⟨a, ha, hac⟩ := Option.bind_eq_some_iff.1 hc
  obtain ⟨a', ha', hagree⟩ := h.getElem? ha
  rw [ha', Option.bind_some] at hc'
  cases hagree with
  | coordinate hsubstitute =>
      cases hac
      cases hc'
      exact hsubstitute
  | handle _ => cases hac

namespace Session.Frame.Agrees

variable {σ : Value.Bindings} {recorded normal : Frame}

/-- One more variable with values that agree. -/
theorem bind (h : recorded.Agrees σ normal) (x : String) {v w : Value}
    (hvalue : v.substitute σ = some w) : (recorded.bind x v).Agrees σ (normal.bind x w) :=
  ⟨.cons ⟨rfl, hvalue⟩ h.bindings, h.args⟩

/-- Values of a term agree. -/
theorem value (h : recorded.Agrees σ normal) (hσ : σ.Plain) {t : Value.Term} (ht : t.Plain)
    {v w : Value} (hv : t.build recorded.bindings = .ok v) (hw : t.build normal.bindings = .ok w) :
    v.substitute σ = some w :=
  t.build_substitute hσ h.bindings ht hv hw

/-- Grid sizes of a launch agree. -/
theorem grid (h : recorded.Agrees σ normal) (hσ : σ.Plain) {t : LaunchTerm} (ht : t.Plain)
    {launch launch' : Launch} (hlaunch : t.build recorded = .ok launch)
    (hlaunch' : t.build normal = .ok launch') :
    launch.grid.substitute σ = some launch'.grid := by
  obtain ⟨v, hv, hlaunch⟩ := except_bind_ok.1 hlaunch
  obtain ⟨w, hw, hlaunch'⟩ := except_bind_ok.1 hlaunch'
  obtain ⟨_, -, hlaunch⟩ := except_bind_ok.1 hlaunch
  obtain ⟨_, -, hlaunch'⟩ := except_bind_ok.1 hlaunch'
  cases hlaunch
  cases hlaunch'
  exact h.value hσ ht.1 hv hw

/-- Arguments of a term agree. -/
theorem argument (h : recorded.Agrees σ normal) (hσ : σ.Plain) {t : ArgumentTerm} (ht : t.Plain)
    {a a' : Argument} (ha : t.build recorded = .ok a) (ha' : t.build normal = .ok a') :
    a.Agrees σ a' := by
  cases t with
  | handle name =>
      cases ha
      cases ha'
      exact .handle name
  | coordinate term =>
      obtain ⟨c, hc, ha⟩ := except_bind_ok.1 ha
      obtain ⟨c', hc', ha'⟩ := except_bind_ok.1 ha'
      cases ha
      cases ha'
      exact .coordinate (term.build_substitute hσ h.bindings h.args.coordinate? ht hc hc')
  | pass position =>
      rw [ArgumentTerm.build] at ha ha'
      split at ha
      · next heq =>
          cases ha
          obtain ⟨b, hb, hagree⟩ := h.args.getElem? heq
          rw [hb] at ha'
          cases ha'
          exact hagree
      · cases ha

end Session.Frame.Agrees

/-- Lists of arguments of terms agree. -/
theorem Session.Frame.Agrees.arguments {σ : Value.Bindings} {recorded normal : Frame}
    (h : recorded.Agrees σ normal) (hσ : σ.Plain) {ts : List ArgumentTerm}
    (hts : ∀ t ∈ ts, t.Plain) {args args' : List Argument}
    (hargs : ts.mapM (·.build recorded) = .ok args)
    (hargs' : ts.mapM (·.build normal) = .ok args') : Argument.AllAgree σ args args' :=
  mapM_forall₂ (fun t ht => h.argument hσ (hts t ht)) hargs hargs'

/-- Values that step functions read from arguments agree. -/
theorem Read.value_substitute (read : Read) {σ : Value.Bindings} {args args' : List Argument}
    (h : Argument.AllAgree σ args args') {v w : Value} (hv : read.value args = .ok v)
    (hw : read.value args' = .ok w) : v.substitute σ = some w := by
  unfold Read.value at hv hw
  split at hv
  · cases hv
  · next c hc =>
      split at hw
      · cases hw
      · next c' hc' =>
          obtain ⟨e, he, hv⟩ := except_bind_ok.1 hv
          obtain ⟨e', he', hw⟩ := except_bind_ok.1 hw
          have helement := Coordinate.path_substitute (h.coordinate? hc hc') he he'
          exact Coordinate.value_substitute helement hv hw

/-- Frames of a step function agree. -/
theorem Routine.frame_agrees (routine : Routine) {σ : Value.Bindings} {args args' : List Argument}
    (h : Argument.AllAgree σ args args') {recorded normal : Frame}
    (hrecorded : routine.frame args = .ok recorded) (hnormal : routine.frame args' = .ok normal) :
    recorded.Agrees σ normal := by
  obtain ⟨bindings, hbindings, hrecorded⟩ := except_bind_ok.1 hrecorded
  obtain ⟨bindings', hbindings', hnormal⟩ := except_bind_ok.1 hnormal
  cases hrecorded
  cases hnormal
  refine ⟨mapM_forall₂ (fun read _ => ?_) hbindings hbindings', h⟩
  intro b b' hb hb'
  obtain ⟨v, hv, hb⟩ := except_bind_ok.1 hb
  obtain ⟨w, hw, hb'⟩ := except_bind_ok.1 hb'
  cases hb
  cases hb'
  exact ⟨rfl, read.value_substitute h hv hw⟩

end TileTrace
