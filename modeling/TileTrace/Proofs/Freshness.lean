import TileTrace.Proofs.Source

/-!
# Fresh symbols

The symbols of launches and loops are fresh: a recorded value has no symbol that
is still to be given. So replacing a new symbol leaves the values there are.
Instead of the symbols in a value we speak of the replacements that cannot be
told apart by it: `Cursor.Same` says that two replacements differ in spare names
only.
-/

namespace TileTrace

namespace Cursor

/-- The sources of symbols have their usual stems. -/
structure Standard (cursor : Cursor) : Prop where
  tiles : cursor.tiles.stem = "tile"
  coords : cursor.coords.stem = "coord"

/-- The second cursor comes after the first. -/
structure Le (cursor after : Cursor) : Prop where
  tiles_stem : after.tiles.stem = cursor.tiles.stem
  coords_stem : after.coords.stem = cursor.coords.stem
  tiles : cursor.tiles.count ≤ after.tiles.count
  coords : cursor.coords.count ≤ after.coords.count

namespace Le

variable {cursor after last : Cursor}

theorem refl (cursor : Cursor) : cursor.Le cursor :=
  ⟨rfl, rfl, Nat.le_refl _, Nat.le_refl _⟩

theorem trans (h : cursor.Le after) (h' : after.Le last) : cursor.Le last :=
  ⟨h'.tiles_stem.trans h.tiles_stem, h'.coords_stem.trans h.coords_stem,
    Nat.le_trans h.tiles h'.tiles, Nat.le_trans h.coords h'.coords⟩

theorem standard (h : cursor.Le after) (hcursor : cursor.Standard) : after.Standard :=
  ⟨h.tiles_stem.trans hcursor.tiles, h.coords_stem.trans hcursor.coords⟩

end Le

theorem le_afterGrid (cursor : Cursor) : cursor.Le cursor.afterGrid :=
  ⟨rfl, rfl, Nat.le_succ _, Nat.le_refl _⟩

theorem le_afterLoop (cursor : Cursor) : cursor.Le cursor.afterLoop :=
  ⟨rfl, rfl, Nat.le_refl _, Nat.le_succ _⟩

theorem le_afterStep (cursor : Cursor) (registry : Registry) :
    cursor.Le (cursor.afterStep registry) :=
  ⟨rfl, rfl, Nat.le_refl _, Nat.le_refl _⟩

/-- The name is still to be given. -/
def Spare (cursor : Cursor) (name : String) : Prop :=
  (∃ n, cursor.tiles.count ≤ n ∧ name = SymbolSource.nameAt "tile" n) ∨
    ∃ n, cursor.coords.count ≤ n ∧ name = SymbolSource.nameAt "coord" n

/-- A name that is spare later is spare. -/
theorem Spare.of_le {cursor after : Cursor} (h : cursor.Le after) {name : String}
    (hname : after.Spare name) : cursor.Spare name := by
  obtain ⟨n, hn, rfl⟩ | ⟨n, hn, rfl⟩ := hname
  · exact .inl ⟨n, Nat.le_trans h.tiles hn, rfl⟩
  · exact .inr ⟨n, Nat.le_trans h.coords hn, rfl⟩

/-- Spare names are reserved. -/
theorem Spare.reserved {cursor : Cursor} {name : String} (h : cursor.Spare name) :
    Reserved name := by
  obtain ⟨n, -, rfl⟩ | ⟨n, -, rfl⟩ := h
  · exact ⟨n, .inl rfl⟩
  · exact ⟨n, .inr rfl⟩

/-- The replacements differ in spare names only. -/
def Same (cursor : Cursor) (σ τ : Value.Bindings) : Prop :=
  ∀ name, ¬cursor.Spare name → τ.lookup name = σ.lookup name

namespace Same

variable {cursor after : Cursor} {σ τ : Value.Bindings}

theorem refl (cursor : Cursor) (σ : Value.Bindings) : cursor.Same σ σ :=
  fun _ _ => rfl

theorem of_le (hle : cursor.Le after) (h : after.Same σ τ) : cursor.Same σ τ :=
  fun name hname => h name fun hspare => hname (hspare.of_le hle)

/-- Both replace reserved names only if one does. -/
theorem plain (h : cursor.Same σ τ) (hσ : σ.Plain) : τ.Plain := by
  intro name hname
  rw [h name fun hspare => hname hspare.reserved]
  exact hσ name hname

/-- A replacement for a name that has just been given. -/
theorem of_cons {name : String} {v : Value} (hle : cursor.Le after) (hspare : cursor.Spare name)
    (hgiven : ¬after.Spare name) (h : after.Same ((name, v) :: σ) τ) :
    cursor.Same σ τ ∧ τ.lookup name = some v := by
  refine ⟨fun other hother => ?_, ?_⟩
  · have hne : (other == name) = false := by
      rw [beq_eq_false_iff_ne]
      rintro rfl
      exact hother hspare
    rw [h other fun hspare => hother (hspare.of_le hle), List.lookup_cons, hne]
  · rw [h name hgiven, List.lookup_cons, beq_self_eq_true]

end Same

/-- The symbol of a launch was spare, and is not any more. -/
theorem spare_tile (cursor : Cursor) :
    cursor.Spare (SymbolSource.nameAt "tile" cursor.tiles.count) ∧
      ¬cursor.afterGrid.Spare (SymbolSource.nameAt "tile" cursor.tiles.count) := by
  refine ⟨.inl ⟨_, Nat.le_refl _, rfl⟩, ?_⟩
  -- After the launch the next number is free, and a symbol of a loop has another stem.
  rintro (⟨n, hn, hname⟩ | ⟨n, -, hname⟩)
  · have heq := SymbolSource.nameAt_injective hname
    change cursor.tiles.count + 1 ≤ n at hn
    omega
  · exact SymbolSource.nameAt_tile_ne_coord _ _ hname

/-- The symbol of a loop was spare, and is not any more. -/
theorem spare_coord (cursor : Cursor) :
    cursor.Spare (SymbolSource.nameAt "coord" cursor.coords.count) ∧
      ¬cursor.afterLoop.Spare (SymbolSource.nameAt "coord" cursor.coords.count) := by
  refine ⟨.inr ⟨_, Nat.le_refl _, rfl⟩, ?_⟩
  rintro (⟨n, -, hname⟩ | ⟨n, hn, hname⟩)
  · exact SymbolSource.nameAt_tile_ne_coord _ _ hname.symm
  · have heq := SymbolSource.nameAt_injective hname
    change cursor.coords.count + 1 ≤ n at hn
    omega

end Cursor

/-! ## Meanings give out symbols -/

/-- The cursor after the trees comes after the one before them. -/
def Meaning.Advances (meaning : Meaning) : Prop :=
  ∀ cursor ts after, meaning cursor = some (ts, after) → cursor.Le after

/-- Contributions of programs advance if those of steps do. -/
theorem Program.contribution_advances {invoke : Node → StepDefinition → List Argument → Meaning}
    (hinvoke : ∀ scope d args, (invoke scope d args).Advances) (p : Program) (scope : Node) :
    (p.contribution invoke scope).Advances := by
  induction p generalizing scope with
  | done =>
      intro cursor ts after h
      cases h
      exact .refl cursor
  | fail _ => exact fun _ _ _ h => nomatch h
  | launch _ _ _ _ _ => exact fun _ _ _ h => nomatch h
  | loop extent body rest ihbody ihrest =>
      intro cursor ts after h
      obtain ⟨⟨inner, next⟩, hinner, h⟩ := Option.bind_eq_some_iff.1 h
      obtain ⟨⟨others, last⟩, hothers, h⟩ := Option.bind_eq_some_iff.1 h
      cases h
      exact (cursor.le_afterLoop.trans (ihbody _ _ _ _ _ hinner)).trans (ihrest _ _ _ _ hothers)
  | call d args rest ih =>
      intro cursor ts after h
      obtain ⟨⟨first, next⟩, hfirst, h⟩ := Option.bind_eq_some_iff.1 h
      obtain ⟨⟨others, last⟩, hothers, h⟩ := Option.bind_eq_some_iff.1 h
      cases h
      exact (hinvoke _ _ _ _ _ _ hfirst).trans (ih _ _ _ _ hothers)

namespace Functions

/-- What an invocation contributes, taken apart. -/
theorem contribution_succ {functions : Functions} {depth : Nat} {scope : Node}
    {d : StepDefinition} {args : List Argument} {cursor after : Cursor} {ts : List Tree}
    (h : functions.contribution (depth + 1) scope d args cursor = some (ts, after)) :
    ∃ tag number registry inner, d.resolveTag args = .ok tag ∧
      (functions d.function args).contribution (functions.contribution depth) scope
        (cursor.afterStep registry) = some (inner, after) ∧
      ts = .node (cursor.step scope d number tag args) [] :: inner := by
  obtain ⟨_, -, h⟩ := Option.bind_eq_some_iff.1 h
  obtain ⟨tag, htag, h⟩ := Option.bind_eq_some_iff.1 h
  dsimp only at h
  split at h
  · next number registry _ =>
      obtain ⟨⟨inner, last⟩, hinner, h⟩ := Option.bind_eq_some_iff.1 h
      cases h
      exact ⟨tag, number, registry, inner, StepDefinition.resolveTag_eq_ok.2 htag, hinner, rfl⟩
  · cases h

/-- Contributions of steps advance. -/
theorem contribution_advances (functions : Functions) (depth : Nat) (scope : Node)
    (d : StepDefinition) (args : List Argument) :
    (functions.contribution depth scope d args).Advances := by
  induction depth generalizing scope d args with
  | zero => exact fun _ _ _ h => nomatch h
  | succ depth ih =>
      intro cursor ts after h
      obtain ⟨_, _, registry, inner, -, hinner, rfl⟩ := contribution_succ h
      exact (cursor.le_afterStep registry).trans (Program.contribution_advances ih _ _ _ _ _ hinner)

end Functions

end TileTrace
