import TileTrace.Proofs.Freshness
import TileTrace.Proofs.Unrolling

/-!
# Recording agrees with running

A source program that is recorded and run without recording gives the same
invocations of steps: those of the run are the events of the record when its
loops are unrolled. `Routines.record_agrees` is the main theorem. The recorded
frame of a part of the program and the frame of a run agree under all
replacements that cannot be told apart by what was recorded so far.
-/

namespace TileTrace

open TileTrace.Tree

/-- Frames that agree under all replacements that are the same up to spare names. -/
def Session.Frame.AgreesFrom (cursor : Cursor) (σ : Value.Bindings)
    (recorded normal : Session.Frame) : Prop :=
  ∀ τ, cursor.Same σ τ → recorded.Agrees τ normal

namespace Session.Frame.AgreesFrom

variable {cursor after : Cursor} {σ : Value.Bindings} {recorded normal : Session.Frame}

/-- Frames agree. -/
theorem agrees (h : AgreesFrom cursor σ recorded normal) : recorded.Agrees σ normal :=
  h σ (.refl cursor σ)

/-- Frames that agree go on to agree. -/
theorem of_le (h : AgreesFrom cursor σ recorded normal) (hle : cursor.Le after) :
    AgreesFrom after σ recorded normal :=
  fun τ hτ => h τ (hτ.of_le hle)

/-- Frames agree when a variable stands for a new symbol and for what replaces it. -/
theorem bind (h : AgreesFrom cursor σ recorded normal) (hle : cursor.Le after) {name : String}
    (hspare : cursor.Spare name) (hgiven : ¬after.Spare name) (x : String) (v : Value) :
    AgreesFrom after ((name, v) :: σ) (recorded.bind x (.symbolic name)) (normal.bind x v) := by
  intro τ hτ
  obtain ⟨hsame, hlookup⟩ := hτ.of_cons hle hspare hgiven
  refine (h τ hsame).bind x ?_
  rw [Value.substitute, hlookup]
  rfl

end Session.Frame.AgreesFrom

/-- Replacing a reserved name too. -/
theorem Value.Bindings.Plain.cons {σ : Value.Bindings} (hσ : σ.Plain) {name : String}
    (hname : Reserved name) (v : Value) : Value.Bindings.Plain ((name, v) :: σ) := by
  intro other hother
  have hne : (other == name) = false := by
    rw [beq_eq_false_iff_ne]
    rintro rfl
    exact hother hname
  rw [List.lookup_cons, hne]
  exact hσ other hother

namespace Cursor.Standard

variable {cursor : Cursor}

/-- The symbol of the next launch. -/
theorem tile_next (h : cursor.Standard) :
    cursor.tiles.next.1 = .symbolic (SymbolSource.nameAt "tile" cursor.tiles.count) := by
  rw [SymbolSource.next, h.tiles]

/-- The symbol of the next loop. -/
theorem coord_next (h : cursor.Standard) :
    cursor.coords.next.1 = .symbolic (SymbolSource.nameAt "coord" cursor.coords.count) := by
  rw [SymbolSource.next, h.coords]

/-- The next loop. -/
theorem payload_loop (h : cursor.Standard) (scope : Node) (extent : Value) :
    (cursor.loop scope extent).payload =
      .loop .nested (.symbolic (SymbolSource.nameAt "coord" cursor.coords.count)) (some extent) :=
  congrArg (fun symbol => Payload.loop .nested symbol (some extent)) h.coord_next

/-- The grid loop of the next launch. -/
theorem payload_grid (h : cursor.Standard) (launch : Launch) :
    (cursor.grid launch).payload =
      .loop .grid (.symbolic (SymbolSource.nameAt "tile" cursor.tiles.count)) (some launch.grid) :=
  congrArg (fun symbol => Payload.loop .grid symbol (some launch.grid)) h.tile_next

end Cursor.Standard

/-- A run of an invocation unrolls what the invocation contributes, if the arguments agree. -/
def StepUnrolls (contribution : Node → StepDefinition → List Argument → Meaning)
    (invoke : StepDefinition → List Argument → Play Unit) : Prop :=
  ∀ {d : StepDefinition} {args args' : List Argument} {scope : Node} {cursor after : Cursor}
    {σ : Value.Bindings} {ts : List Tree}, d.Plain → σ.Plain → cursor.Standard →
    (∀ τ, cursor.Same σ τ → Argument.AllAgree τ args args') →
    contribution scope d args cursor = some (ts, after) →
    (invoke d args').Unrolls (forestUnroll ts σ)

namespace Source

variable {contribution : Node → StepDefinition → List Argument → Meaning}
  {invoke : StepDefinition → List Argument → Play Unit}

/-- A run of a body unrolls what the body contributes, if the frames agree. -/
theorem unrolls (hinvoke : StepUnrolls contribution invoke)
    (hadvances : ∀ scope d args, (contribution scope d args).Advances) {s : Source} (hs : s.Plain)
    {scope : Node} {cursor after : Cursor} {σ : Value.Bindings} {ts : List Tree}
    {recorded normal : Session.Frame} (hσ : σ.Plain) (hcursor : cursor.Standard)
    (hframes : Session.Frame.AgreesFrom cursor σ recorded normal)
    (hts : (s.program recorded).contribution contribution scope cursor = some (ts, after)) :
    ((s.program normal).play invoke).Unrolls (forestUnroll ts σ) := by
  induction s generalizing scope cursor after σ ts recorded normal with
  | done =>
      cases hts
      exact .done
  | launch term block body rest _ _ =>
      rw [program] at hts
      split at hts <;> cases hts
  | loop extent index body rest ihbody ihrest =>
      obtain ⟨hextent, hbody, hrest⟩ := hs
      rw [program] at hts ⊢
      split at hts
      · next v hv =>
          obtain ⟨⟨inner, next⟩, hinner, hts⟩ := Option.bind_eq_some_iff.1 hts
          obtain ⟨⟨others, last⟩, hothers, hts⟩ := Option.bind_eq_some_iff.1 hts
          cases hts
          split
          · next w hw =>
              have hvalue := hframes.agrees.value hσ hextent hv hw
              -- The body was recorded once, with a new symbol. Each round of the run goes with the
              -- same trees, where that symbol is replaced by the index of the round.
              rw [hcursor.coord_next] at hinner
              have hround (i : Nat) := ihbody hbody (hσ.cons cursor.spare_coord.1.reserved _)
                (cursor.le_afterLoop.standard hcursor)
                (hframes.bind cursor.le_afterLoop cursor.spare_coord.1 cursor.spare_coord.2 index
                  (.concrete (Int64.ofNat i))) hinner
              have hloop : (FrontEnd.tileLoop w fun value =>
                  (body.program (normal.bind index value)).play invoke).Unrolls
                    ((Tree.node (cursor.loop scope v) inner).unroll σ) := by
                refine .tileLoop hround fun word hword => ?_
                rw [hword] at hvalue
                exact unroll_loop (hcursor.payload_loop scope v) hvalue
              have hle := cursor.le_afterLoop.trans
                (Program.contribution_advances hadvances _ _ _ _ _ hinner)
              exact hloop.andThen
                (ihrest hrest hσ (hle.standard hcursor) (hframes.of_le hle) hothers)
          · exact .fail _ _
      · cases hts
  | call d args rest ih =>
      obtain ⟨hd, hargs, hrest⟩ := hs
      rw [program] at hts ⊢
      split at hts
      · next recordedArgs hrecorded =>
          obtain ⟨⟨first, next⟩, hfirst, hts⟩ := Option.bind_eq_some_iff.1 hts
          obtain ⟨⟨others, last⟩, hothers, hts⟩ := Option.bind_eq_some_iff.1 hts
          cases hts
          split
          · next normalArgs hnormal =>
              have hle := hadvances _ _ _ _ _ _ hfirst
              have hcall := hinvoke hd hσ hcursor
                (fun τ hτ => (hframes τ hτ).arguments (hτ.plain hσ) hargs hrecorded hnormal) hfirst
              have hothers := ih hrest hσ (hle.standard hcursor) (hframes.of_le hle) hothers
              rw [forestUnroll_append]
              exact hcall.andThen hothers
          · exact .fail _ _
      · cases hts

/-- A run of a program unrolls its kernels, if the frames agree. -/
theorem unrolls_kernels (hinvoke : StepUnrolls contribution invoke)
    (hadvances : ∀ scope d args, (contribution scope d args).Advances) {s : Source} (hs : s.Plain)
    {cursor after : Cursor} {σ : Value.Bindings} {ts : List Tree}
    {recorded normal : Session.Frame} (hσ : σ.Plain) (hcursor : cursor.Standard)
    (hframes : Session.Frame.AgreesFrom cursor σ recorded normal)
    (hts : (s.program recorded).kernels contribution cursor = some (ts, after)) :
    ((s.program normal).play invoke).Unrolls (forestUnroll ts σ) := by
  induction s generalizing cursor after ts with
  | done =>
      cases hts
      exact .done
  | launch term block body rest _ ihrest =>
      obtain ⟨hterm, hbody, hrest⟩ := hs
      rw [program] at hts ⊢
      split at hts
      · next launch hlaunch =>
          obtain ⟨⟨inner, next⟩, hinner, hts⟩ := Option.bind_eq_some_iff.1 hts
          obtain ⟨⟨others, last⟩, hothers, hts⟩ := Option.bind_eq_some_iff.1 hts
          cases hts
          split
          · next launch' hlaunch' =>
              have hvalue := hframes.agrees.grid hσ hterm hlaunch hlaunch'
              rw [hcursor.tile_next] at hinner
              have hround (i : Nat) := unrolls hinvoke hadvances hbody
                (hσ.cons cursor.spare_tile.1.reserved _) (cursor.le_afterGrid.standard hcursor)
                (hframes.bind cursor.le_afterGrid cursor.spare_tile.1 cursor.spare_tile.2 block
                  (.concrete (Int64.ofNat i))) hinner
              have hkernel : (FrontEnd.launchKernel launch' fun value =>
                  (body.program (normal.bind block value)).play invoke).Unrolls
                    ((Tree.node (cursor.kernel launch)
                      [.node (cursor.grid launch) inner]).unroll σ) := by
                refine .launchKernel hround fun word hword => ?_
                rw [hword] at hvalue
                rw [unroll_kernel rfl, forestUnroll_singleton,
                  unroll_loop (hcursor.payload_grid launch) hvalue]
              have hle := cursor.le_afterGrid.trans
                (Program.contribution_advances hadvances _ _ _ _ _ hinner)
              exact hkernel.andThen
                (ihrest hrest (hle.standard hcursor) (hframes.of_le hle) hothers)
          · exact .fail _ _
      · cases hts
  | loop extent index body rest _ _ =>
      rw [program] at hts
      split at hts <;> cases hts
  | call d args rest _ =>
      rw [program] at hts
      split at hts <;> cases hts

end Source

namespace Routines

variable {routines : Routines}

/-- Invocations of steps unroll what they contribute. -/
theorem stepUnrolls (h : routines.Plain) (depth normalDepth : Nat) :
    StepUnrolls (routines.functions.contribution depth)
      (routines.functions.invoke normalDepth) := by
  -- The two runs may have different bounds for nesting: that of the record is the one used up.
  induction depth generalizing normalDepth with
  | zero =>
      intro d args args' scope cursor after σ ts _ _ _ _ hts
      cases hts
  | succ depth ih =>
      intro d args args' scope cursor after σ ts hd hσ hcursor hargs hts
      cases normalDepth with
      | zero => exact .fail _ _
      | succ normalDepth =>
          obtain ⟨tag, number, registry, inner, htag, hinner, rfl⟩ :=
            Functions.contribution_succ hts
          have hagree := hargs σ (.refl cursor σ)
          obtain ⟨tag', htag', hsubstitute⟩ :=
            StepDefinition.resolveTag_substitute hd hσ hagree htag
          rw [forestUnroll_step rfl hsubstitute, ← StepDefinition.inputsOf_eq_handles,
            hagree.inputsOf_eq]
          refine .invokeStep htag' ?_
          have hle := cursor.le_afterStep registry
          rw [functions_apply] at hinner ⊢
          split at hinner
          · next recorded hrecorded =>
              split
              · next normal hnormal =>
                  have hframes : recorded.AgreesFrom (cursor.afterStep registry) σ normal :=
                    fun τ hτ => Routine.frame_agrees _ (hargs τ (hτ.of_le hle)) hrecorded hnormal
                  exact Source.unrolls (ih normalDepth)
                    (routines.functions.contribution_advances depth) (h d.function) hσ
                    (hle.standard hcursor) hframes hinner
              · exact .fail _ _
          · cases hinner

/-- A source program that is recorded into a fresh context and run without recording: the run
changes nothing, and its invocations of steps show the events of the record, unrolled. -/
theorem record_agrees (hroutines : routines.Plain) {source : Source} (hsource : source.Plain)
    {depth normalDepth : Nat} {id number : ContextId} {w w' v v' : World}
    {recorded invocations : List Invocation} (hcontext : w.context? id = some (.fresh number))
    (henabled : w.disable.has .recording = false)
    (hrecord : (routines.functions.record depth id (source.program {})).runOn w =
      (.ok recorded, w'))
    (hnormal : v.isRecording = false)
    (hrun : (routines.functions.run normalDepth (source.program {})).runOn v =
      (.ok invocations, v')) :
    v' = v ∧ ∃ c events, w'.context? id = some c ∧ forestUnroll c.forest [] = some events ∧
      invocations.mapM Invocation.event? = some events := by
  obtain ⟨ts, c, hts, hc, hgrown⟩ :=
    routines.functions.record_grown hcontext rfl henabled hrecord
  have hforest : c.forest = ts := hgrown.forest
  have hframes : Session.Frame.AgreesFrom (Context.fresh number).cursor [] {} {} :=
    fun τ _ => ⟨.nil, .nil⟩
  have hunrolls := Source.unrolls_kernels (stepUnrolls hroutines depth normalDepth)
    (routines.functions.contribution_advances depth) hsource (fun _ _ => rfl) ⟨rfl, rfl⟩ hframes hts
  have htarget : v.target? = none := by
    rw [World.target?, hnormal]
    rfl
  obtain ⟨⟨_, log⟩, v₁, hplay, hreturn⟩ := Trace.bind_ok.1 hrun
  obtain ⟨rfl, rfl⟩ := Trace.pure_ok.1 hreturn
  obtain ⟨rfl, invocations, events, rfl, hevents, hunrolled⟩ := hunrolls.run htarget hplay
  exact ⟨rfl, c, events, hc, hforest ▸ hunrolled, hevents⟩

end Routines

/-- A launch whose blocks have more tiles one after the other. -/
def triangleSource : Source :=
  .launch ⟨"triangle", .word 2, .unbound, [], []⟩ "block"
    (.loop (.binary .add (.var "block") (.word 1)) "index"
      (.call loadStep [.coordinate (.composite [.bound (.symbol "row"),
        .bound (.binary .mul (.var "block") (.var "index"))]), .handle "x"] .done) .done) .done

/-- The function of the step loops as often as the second element of its first argument says. -/
def triangleRoutines : Routines := fun _ =>
  ⟨[⟨"at", 0, [1]⟩], .loop (.var "at") "inner" .done .done⟩

theorem plain_triangleSource : triangleSource.Plain := by
  have hrow : ¬Reserved "row" := by
    rintro ⟨n, h | h⟩ <;>
    · have hlists := congrArg String.toList h
      simp [SymbolSource.nameAt] at hlists
  have hstep : loadStep.Plain := by
    intro _ h
    cases h
  refine ⟨⟨trivial, trivial⟩, ⟨⟨trivial, trivial⟩, ⟨hstep, ?_, trivial⟩, trivial⟩, trivial⟩
  intro arg harg
  obtain rfl | harg := List.mem_cons.1 harg
  · exact ⟨hrow, ⟨trivial, trivial⟩, trivial⟩
  · obtain rfl := List.mem_singleton.1 harg
    trivial

theorem plain_triangleRoutines : triangleRoutines.Plain :=
  fun _ => ⟨trivial, trivial, trivial⟩

/-- Recording the launch agrees with running it, which invokes the step three times. -/
theorem record_agrees_triangle :
    ∃ recorded w' invocations v',
      (triangleRoutines.functions.record 1 0 (triangleSource.program {})).runOn freshWorld =
        (.ok recorded, w') ∧
      (triangleRoutines.functions.run 1 (triangleSource.program {})).runOn freshWorld =
        (.ok invocations, v') ∧
      invocations.length = 3 ∧ v' = freshWorld ∧
      ∃ c events, w'.context? 0 = some c ∧ forestUnroll c.forest [] = some events ∧
        invocations.mapM Invocation.event? = some events := by
  have hrecorded : ((triangleRoutines.functions.record 1 0
      (triangleSource.program {})).runOn freshWorld).1.isOk = true := by
    decide +kernel
  have hnormal : ((triangleRoutines.functions.run 1
      (triangleSource.program {})).runOn freshWorld).1.isOk = true := by
    decide +kernel
  have hlength : ((triangleRoutines.functions.run 1
      (triangleSource.program {})).runOn freshWorld).1.toOption.map List.length = some 3 := by
    decide +kernel
  obtain ⟨recorded, w', hrecord⟩ := Trace.exists_ok hrecorded
  obtain ⟨invocations, v', hrun⟩ := Trace.exists_ok hnormal
  rw [hrun] at hlength
  have hfresh : freshWorld.context? 0 = some (.fresh 0) := rfl
  exact ⟨recorded, w', invocations, v', hrecord, hrun, Option.some.inj hlength,
    Routines.record_agrees plain_triangleRoutines plain_triangleSource hfresh rfl hrecord rfl hrun⟩

end TileTrace
