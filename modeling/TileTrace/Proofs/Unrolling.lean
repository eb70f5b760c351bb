import TileTrace.Proofs.Refinement
import TileTrace.Proofs.Source

/-!
# Unrolling records

A record says what a program does without recording: `Tree.unroll` goes through
the trees, repeats every loop for each index below its extent, and replaces the
induction symbol of the loop by the index in what is below it. `Play.Unrolls`
compares a run with that. There is one lemma for each way of putting a program
together.
-/

namespace TileTrace

open TileTrace.Tree

/-- What an invocation of a step shows. -/
structure Event where
  origin : StepDefinition
  tag : Coordinate
  inputs : List Handle

/-- What an invocation shows, if it has a tag. -/
def Invocation.event? (invocation : Invocation) : Option Event :=
  match invocation.step.resolveTag invocation.args with
  | .ok tag => some ⟨invocation.step, tag, StepDefinition.inputsOf invocation.args⟩
  | .error _ => none

/-- The events of a number of rounds. -/
def rounds (count : Nat) (round : Nat → Option (List Event)) : Option (List Event) :=
  ((List.range count).mapM round).map List.flatten

/-- The events of consecutive rounds are those of the first one and those of the others. -/
theorem mapM_range'_succ (round : Nat → Option (List Event)) (start count : Nat) :
    ((List.range' start (count + 1)).mapM round).map List.flatten = (do
      let events ← round start
      let others ← ((List.range' (start + 1) count).mapM round).map List.flatten
      return events ++ others) := by
  rw [List.range'_succ, List.mapM_cons]
  cases round start with
  | none => rfl
  | some events =>
      cases (List.range' (start + 1) count).mapM round with
      | none => rfl
      | some others => rfl

mutual
/-- The events of a tree when its loops are unrolled, with some symbols replaced. -/
def Tree.unroll : Tree → Value.Bindings → Option (List Event)
  | .node n children, σ =>
      match n.payload with
      | .kernel _ _ _ => forestUnroll children σ
      | .loop _ (.symbolic name) (some extent) =>
          match extent.substitute σ with
          | some (.concrete word) =>
              rounds word.toInt.toNat fun i =>
                forestUnroll children ((name, .concrete (Int64.ofNat i)) :: σ)
          | _ => none
      | .loop _ _ _ => none
      | .step origin _ inputs _ => do
          let tag ← n.tag.substitute σ
          let events ← forestUnroll children σ
          return ⟨origin, tag, inputs⟩ :: events

/-- The events of a forest when its loops are unrolled, with some symbols replaced. -/
def Tree.forestUnroll : List Tree → Value.Bindings → Option (List Event)
  | [], _ => some []
  | t :: ts, σ => do
      let first ← t.unroll σ
      let rest ← forestUnroll ts σ
      return first ++ rest
end

namespace Tree

theorem forestUnroll_append (ts us : List Tree) (σ : Value.Bindings) :
    forestUnroll (ts ++ us) σ = (do
      let first ← forestUnroll ts σ
      let rest ← forestUnroll us σ
      return first ++ rest) := by
  induction ts with
  | nil => simp [forestUnroll]
  | cons t ts ih => simp [forestUnroll, ih, Option.bind_assoc]

theorem forestUnroll_singleton (t : Tree) (σ : Value.Bindings) :
    forestUnroll [t] σ = t.unroll σ := by
  simp [forestUnroll]

/-- A loop is unrolled by replacing its induction symbol by each index. -/
theorem unroll_loop {n : Node} {children : List Tree} {σ : Value.Bindings} {kind : LoopKind}
    {name : String} {extent : Value} {word : Int64}
    (hn : n.payload = .loop kind (.symbolic name) (some extent))
    (hextent : extent.substitute σ = some (.concrete word)) :
    (node n children).unroll σ = rounds word.toInt.toNat fun i =>
      forestUnroll children ((name, .concrete (Int64.ofNat i)) :: σ) := by
  rw [unroll, hn]
  dsimp only
  rw [hextent]

/-- A kernel is unrolled by unrolling what is below it. -/
theorem unroll_kernel {n : Node} {children : List Tree} {σ : Value.Bindings} {name : String}
    {inputs outputs : List Handle} (hn : n.payload = .kernel name inputs outputs) :
    (node n children).unroll σ = forestUnroll children σ := by
  rw [unroll, hn]

/-- A step is unrolled to its event. -/
theorem forestUnroll_step {n : Node} {ts : List Tree} {σ : Value.Bindings} {d : StepDefinition}
    {number : StepId} {tag : Coordinate} {inputs outputs : List Handle}
    (hn : n.payload = .step d number inputs outputs) (htag : n.tag.substitute σ = some tag) :
    forestUnroll (node n [] :: ts) σ = (do
      let events ← forestUnroll ts σ
      return ⟨d, tag, inputs⟩ :: events) := by
  rw [forestUnroll, unroll, hn, htag]
  rfl

end Tree

/-! ## Runs without recording -/

/-- Without recording, what comes before the function of a step changes nothing. -/
theorem World.eq_of_beforeStep {w w' : World} {d : StepDefinition} {args : List Argument}
    (htarget : w.target? = none) (hrun : (FrontEnd.beforeStep d args).runOn w = (.ok (), w')) :
    w' = w := by
  obtain ⟨_, w₁, harity, hasked⟩ := Trace.bind_ok.1 hrun
  obtain ⟨-, rfl⟩ := Trace.ofExcept_ok.1 harity
  obtain ⟨_, _, hfound, hnothing⟩ := Trace.bind_ok.1 hasked
  obtain ⟨rfl, rfl⟩ := Trace.target?_ok.1 hfound
  rw [htarget] at hnothing
  exact (Trace.pure_ok.1 hnothing).2

namespace Play

/-- A run without recording that returns leaves the world as it is and invokes steps with the given
events. -/
structure Unrolls (action : Play Unit) (events? : Option (List Event)) : Prop where
  run : ∀ {log log' : List Invocation} {w w' : World}, w.target? = none →
    action.Returns log w () log' w' → w' = w ∧ ∃ invocations events,
      log' = log ++ invocations ∧ invocations.mapM Invocation.event? = some events ∧
      events? = some events

namespace Unrolls

/-- Nothing has no events. -/
theorem done : Unrolls (pure ()) (some []) := by
  constructor
  intro log log' w w' _ hrun
  obtain ⟨-, rfl, rfl⟩ := returns_pure.1 hrun
  exact ⟨rfl, [], [], by rw [List.append_nil], rfl, rfl⟩

/-- A failure does not return. -/
theorem fail (e : Error) (events? : Option (List Event)) : Unrolls (throw e) events? := by
  constructor
  intro log log' w w' _ hrun
  exact absurd hrun not_returns_throw

/-- One run after another has the events of both. -/
theorem andThen {first rest : Play Unit} {before after : Option (List Event)}
    (hfirst : Unrolls first before) (hrest : Unrolls rest after) :
    Unrolls (do first; rest) (do
      let events ← before
      let others ← after
      return events ++ others) := by
  constructor
  intro log log' w w' htarget hrun
  obtain ⟨_, log₁, w₁, hrun₁, hrun₂⟩ := returns_bind.1 hrun
  obtain ⟨rfl, invocations, events, rfl, hevents, rfl⟩ := hfirst.run htarget hrun₁
  obtain ⟨rfl, invocations', events', rfl, hevents', rfl⟩ := hrest.run htarget hrun₂
  refine ⟨rfl, invocations ++ invocations', events ++ events', ?_, ?_, rfl⟩
  · rw [List.append_assoc]
  · rw [List.mapM_append, hevents, hevents']
    rfl

/-- Counting has the events of each index, in order. -/
theorem countFrom {body : Value → Play Unit} {round : Nat → Option (List Event)}
    (hbody : ∀ i, Unrolls (body (.concrete (Int64.ofNat i))) (round i)) (start count : Nat) :
    Unrolls (FrontEnd.countFrom body start count)
      (((List.range' start count).mapM round).map List.flatten) := by
  induction count generalizing start with
  | zero => exact done
  | succ count ih =>
      rw [mapM_range'_succ]
      exact (hbody start).andThen (ih (start + 1))

/-- Running a body below an extent has the events of each index, in order. -/
theorem runConcrete {what : String} {extent : Value} {body : Value → Play Unit}
    {events? : Option (List Event)} {round : Nat → Option (List Event)}
    (hbody : ∀ i, Unrolls (body (.concrete (Int64.ofNat i))) (round i))
    (hevents : ∀ word, extent = .concrete word → events? = rounds word.toInt.toNat round) :
    Unrolls (FrontEnd.runConcrete what extent body) events? := by
  unfold FrontEnd.runConcrete
  split
  · next word =>
      rw [hevents word rfl, rounds, List.range_eq_range']
      exact countFrom hbody 0 _
  · constructor
    intro log log' w w' _ hrun
    obtain ⟨-, hthrow⟩ := returns_lift.1 hrun
    exact absurd hthrow Trace.throw_ne_ok

/-- A loop has the events of its body for each index, in order. -/
theorem tileLoop {extent : Value} {body : Value → Play Unit} {events? : Option (List Event)}
    {round : Nat → Option (List Event)}
    (hbody : ∀ i, Unrolls (body (.concrete (Int64.ofNat i))) (round i))
    (hevents : ∀ word, extent = .concrete word → events? = rounds word.toInt.toNat round) :
    Unrolls (FrontEnd.tileLoop extent body) events? := by
  constructor
  intro log log' w w' htarget hrun
  rw [FrontEnd.tileLoop, returns_target, htarget] at hrun
  exact (runConcrete hbody hevents).run htarget hrun

/-- A launch has the events of its body for each block, in order. -/
theorem launchKernel {launch : Launch} {body : Value → Play Unit} {events? : Option (List Event)}
    {round : Nat → Option (List Event)}
    (hbody : ∀ i, Unrolls (body (.concrete (Int64.ofNat i))) (round i))
    (hevents : ∀ word, launch.grid = .concrete word → events? = rounds word.toInt.toNat round) :
    Unrolls (FrontEnd.launchKernel launch body) events? := by
  constructor
  intro log log' w w' htarget hrun
  rw [FrontEnd.launchKernel, returns_target, htarget] at hrun
  exact (runConcrete hbody hevents).run htarget hrun

/-- An invocation of a step has its event, and after it the events of its function. -/
theorem invokeStep {d : StepDefinition} {args : List Argument} {tag : Coordinate}
    {apply : FunctionId → List Argument → Play Unit} {events? : Option (List Event)}
    (htag : d.resolveTag args = .ok tag) (happly : Unrolls (apply d.function args) events?) :
    Unrolls (FrontEnd.invokeStep (fun function args => do
      modify (· ++ [⟨d, args⟩])
      apply function args) d args) (do
        let events ← events?
        return ⟨d, tag, StepDefinition.inputsOf args⟩ :: events) := by
  constructor
  intro log log' w w' htarget hrun
  obtain ⟨_, _, w₁, hbefore, hfunction⟩ := returns_bind.1 hrun
  obtain ⟨rfl, hcheck⟩ := returns_lift.1 hbefore
  obtain rfl := World.eq_of_beforeStep htarget hcheck
  obtain ⟨_, _, _, hmodify, hbody⟩ := returns_bind.1 hfunction
  obtain ⟨rfl, rfl⟩ := returns_modify.1 hmodify
  obtain ⟨rfl, invocations, events, rfl, hevents, rfl⟩ := happly.run htarget hbody
  refine ⟨rfl, ⟨d, args⟩ :: invocations, _, ?_, ?_, rfl⟩
  · rw [List.append_assoc]
    rfl
  · have hevent : Invocation.event? ⟨d, args⟩ =
        some ⟨d, tag, StepDefinition.inputsOf args⟩ := by
      rw [Invocation.event?, htag]
    rw [List.mapM_cons, hevent, hevents]
    rfl

end Unrolls

end Play

end TileTrace
