import Mathlib.Data.List.Nodup
import TileTrace.Proofs.Refusal

/-!
# Numbers of step definitions

A context numbers the step definitions that are recorded in it, and a definition
is known by its function. Read `Registry.Consistent` first: no number and no
function is bound twice, and all numbers lie below the next one. Every operation
keeps this, and keeps the bindings there are, by `Operation.Step.numbered`. It
decides when recording a step is refused: `Registry.Clash` lists the reasons, and
`history_numbering` is the main theorem.
-/

namespace TileTrace

namespace Registry

/-- The number that a function is bound to. -/
def number? (registry : Registry) (function : FunctionId) : Option StepId :=
  (registry.bindingOf function).map (·.1)

/-- No number and no function is bound twice, and bound numbers are natural numbers below the next
one. -/
structure Consistent (registry : Registry) : Prop where
  numbers : (registry.bindings.map (·.1)).Nodup
  functions : (registry.bindings.map (·.2.function)).Nodup
  nonneg : ∀ b ∈ registry.bindings, 0 ≤ b.1
  lt_next : ∀ b ∈ registry.bindings, b.1 < registry.next
  next_nonneg : 0 ≤ registry.next

/-- A function without a binding is not the function of any binding. -/
theorem bindingOf_eq_none {registry : Registry} {function : FunctionId} :
    registry.bindingOf function = none ↔ ∀ b ∈ registry.bindings, b.2.function ≠ function := by
  simp [bindingOf]

/-- A number without a definition is not the number of any binding. -/
theorem definition?_eq_none {registry : Registry} {i : StepId} :
    registry.definition? i = none ↔ ∀ b ∈ registry.bindings, b.1 ≠ i := by
  rw [definition?, List.lookup_eq_none_iff]
  simp only [bne_iff_ne, ne_comm]

theorem number?_eq_none {registry : Registry} {function : FunctionId} :
    registry.number? function = none ↔ ∀ b ∈ registry.bindings, b.2.function ≠ function := by
  rw [number?, Option.map_eq_none_iff, bindingOf_eq_none]

namespace Consistent

variable {registry registry' : Registry} {d : StepDefinition} {i : StepId}

/-- The registry of a fresh context is consistent. -/
theorem empty : ({} : Registry).Consistent :=
  ⟨.nil, .nil, nofun, nofun, Int.le_refl 0⟩

/-- The binding of a function is the one with this function. -/
theorem bindingOf_eq_some (h : registry.Consistent) {function : FunctionId}
    {b : StepId × StepDefinition} :
    registry.bindingOf function = some b ↔ b ∈ registry.bindings ∧ b.2.function = function := by
  have hfound {b' : StepId × StepDefinition} (hb' : registry.bindingOf function = some b') :
      b' ∈ registry.bindings ∧ b'.2.function = function :=
    ⟨List.mem_of_find?_eq_some hb', by simpa using List.find?_some hb'⟩
  refine ⟨hfound, fun ⟨hb, hfunction⟩ => ?_⟩
  cases hresult : registry.bindingOf function with
  | none => exact absurd hfunction (bindingOf_eq_none.1 hresult b hb)
  | some b' =>
      obtain ⟨hb', hfunction'⟩ := hfound hresult
      exact congrArg some (List.inj_on_of_nodup_map h.functions hb' hb
        (hfunction'.trans hfunction.symm))

/-- The definition of a number is the one bound to it. -/
theorem definition?_eq_some (h : registry.Consistent) :
    registry.definition? i = some d ↔ (i, d) ∈ registry.bindings := by
  have hfound {d' : StepDefinition} (hd' : registry.definition? i = some d') :
      (i, d') ∈ registry.bindings := by
    obtain ⟨before, after, hbindings, -⟩ := List.lookup_eq_some_iff.1 hd'
    exact hbindings ▸ List.mem_append_right _ List.mem_cons_self
  refine ⟨hfound, fun hb => ?_⟩
  cases hresult : registry.definition? i with
  | none => exact absurd rfl (definition?_eq_none.1 hresult (i, d) hb)
  | some d' =>
      have heq := List.inj_on_of_nodup_map h.numbers (hfound hresult) hb rfl
      exact congrArg some (congrArg Prod.snd heq)

/-- The number of a function is that of the definition with this function. -/
theorem number?_eq_some (h : registry.Consistent) {function : FunctionId} :
    registry.number? function = some i ↔
      ∃ d, (i, d) ∈ registry.bindings ∧ d.function = function := by
  rw [number?, Option.map_eq_some_iff]
  constructor
  · rintro ⟨⟨_, d⟩, hbinding, rfl⟩
    exact ⟨d, h.bindingOf_eq_some.1 hbinding⟩
  · rintro ⟨d, hb, hfunction⟩
    exact ⟨(i, d), h.bindingOf_eq_some.2 ⟨hb, hfunction⟩, rfl⟩

/-- A definition that is bound keeps its number, and another one gets a number of its own. -/
theorem bind_ok (h : registry.Consistent) {requested : Option StepId}
    (hbind : registry.bind d requested = .ok (i, registry')) :
    (registry' = registry ∧ (i, d) ∈ registry.bindings) ∨
      (registry' = ⟨(i, d) :: registry.bindings, max registry.next (i + 1)⟩ ∧ 0 ≤ i ∧
        registry.number? d.function = none ∧ registry.definition? i = none) := by
  unfold bind at hbind
  split at hbind
  · next number holder hbinding =>
      obtain ⟨hmem, -⟩ := h.bindingOf_eq_some.1 hbinding
      split at hbind
      · next hholder =>
          subst hholder
          split at hbind
          · split at hbind
            · cases hbind
              exact .inl ⟨rfl, hmem⟩
            · cases hbind
          · cases hbind
            exact .inl ⟨rfl, hmem⟩
      · cases hbind
  · next hbinding =>
      dsimp only at hbind
      split at hbind
      · cases hbind
      · next hnonneg =>
          split at hbind
          · cases hbind
          · next hfree =>
              cases hbind
              exact .inr ⟨rfl, Int.not_lt.1 hnonneg, by rw [number?, hbinding]; rfl, hfree⟩

/-- Binding a definition keeps a registry consistent, and keeps its bindings. -/
theorem bind (h : registry.Consistent) {requested : Option StepId}
    (hbind : registry.bind d requested = .ok (i, registry')) :
    registry'.Consistent ∧ registry.bindings <:+ registry'.bindings ∧
      (i, d) ∈ registry'.bindings := by
  obtain ⟨rfl, hmem⟩ | ⟨rfl, hi, hfunction, hnumber⟩ := h.bind_ok hbind
  · exact ⟨h, List.suffix_rfl, hmem⟩
  · refine ⟨⟨?_, ?_, ?_, ?_, ?_⟩, List.suffix_cons _ _, List.mem_cons_self⟩
    · refine List.nodup_cons.2 ⟨?_, h.numbers⟩
      intro hmem
      obtain ⟨b, hb, hbi⟩ := List.mem_map.1 hmem
      exact definition?_eq_none.1 hnumber b hb hbi
    · refine List.nodup_cons.2 ⟨?_, h.functions⟩
      intro hmem
      obtain ⟨b, hb, hbd⟩ := List.mem_map.1 hmem
      exact number?_eq_none.1 hfunction b hb hbd
    · intro b hb
      obtain rfl | hb := List.mem_cons.1 hb
      · exact hi
      · exact h.nonneg b hb
    · intro b hb
      obtain rfl | hb := List.mem_cons.1 hb
      · exact Int.lt_of_lt_of_le (Int.lt_succ i) (Int.le_max_right _ _)
      · exact Int.lt_of_lt_of_le (h.lt_next b hb) (Int.le_max_left _ _)
    · exact Int.le_trans h.next_nonneg (Int.le_max_left _ _)

end Consistent
end Registry

/-! ## Histories -/

namespace Context

/-- The registry is consistent, and every step carries the number of its definition. -/
structure IsNumbered (c : Context) : Prop where
  registry : c.registry.Consistent
  steps : ∀ {i : Nat} {n : Node} {origin : StepDefinition} {number : StepId}
    {inputs outputs : List Handle}, c.node? i = some n →
    n.payload = .step origin number inputs outputs → (number, origin) ∈ c.registry.bindings

/-- A node that is pushed is found at the end. -/
theorem node?_push {nodes : Array Node} {n m : Node} {i : Nat}
    (h : (nodes.push m)[i]? = some n) : n = m ∨ nodes[i]? = some n := by
  rw [Array.getElem?_push] at h
  split at h
  · exact .inl (Option.some.inj h).symm
  · exact .inr h

namespace IsNumbered

variable {c : Context}

/-- Changing a node in another way than its payload as a step keeps the steps numbered. -/
theorem modifyNode (h : c.IsNumbered) (id : NodeId) {change : Node → Node}
    (hchange : ∀ n, (change n).isStep → (change n).payload = n.payload) :
    (c.modifyNode id change).IsNumbered := by
  refine ⟨h.registry, fun {i n origin number inputs outputs} hn hpayload => ?_⟩
  rw [node?_modifyNode] at hn
  split at hn
  · obtain ⟨m, hm, rfl⟩ := Option.map_eq_some_iff.1 hn
    have hstep : (change m).isStep := by rw [Node.isStep, hpayload]
    exact h.steps hm ((hchange m hstep).symm.trans hpayload)
  · exact h.steps hn hpayload

end IsNumbered
end Context

/-- No kernel becomes a step when it gets an input. -/
theorem Node.payload_addInput {handle : Handle} {n : Node} (h : (n.addInput handle).isStep) :
    (n.addInput handle).payload = n.payload := by
  obtain ⟨_, _, _, _, _ | _ | _⟩ := n
  · cases h
  · rfl
  · rfl

/-- No kernel becomes a step when it gets an output. -/
theorem Node.payload_addOutput {handle : Handle} {n : Node} (h : (n.addOutput handle).isStep) :
    (n.addOutput handle).payload = n.payload := by
  obtain ⟨_, _, _, _, _ | _ | _⟩ := n
  · cases h
  · rfl
  · rfl

/-- Every operation that succeeds keeps the steps numbered, and keeps the bindings there are. -/
theorem Operation.Step.numbered {c changed : Context} {operation : Operation}
    (h : c.IsNumbered) (hstep : Step c operation changed) :
    changed.IsNumbered ∧ c.registry.bindings <:+ changed.registry.bindings := by
  cases hstep with
  | openKernel name template extent hscope =>
      refine ⟨⟨h.registry, fun hn hpayload => ?_⟩, List.suffix_rfl⟩
      obtain rfl | hn := Context.node?_push hn
      · cases hpayload
      · obtain rfl | hn := Context.node?_push hn
        · cases hpayload
        · exact h.steps hn hpayload
  | openLoop extent scope outer hscope houter =>
      refine ⟨⟨h.registry, fun hn hpayload => ?_⟩, List.suffix_rfl⟩
      obtain rfl | hn := Context.node?_push hn
      · cases hpayload
      · exact h.steps hn hpayload
  | closeLoop scope loop outer hscope hloop hgrid hparent =>
      exact ⟨⟨h.registry, h.steps⟩, List.suffix_rfl⟩
  | recordStep origin tag requested inputs scope outer definitionId registry hscope houter hbind =>
      obtain ⟨hregistry, hkept, hnew⟩ := h.registry.bind hbind
      refine ⟨⟨hregistry, fun hn hpayload => ?_⟩, hkept⟩
      obtain rfl | hn := Context.node?_push hn
      · cases hpayload
        exact hnew
      · exact hkept.subset (h.steps hn hpayload)
  | closeKernel scope loop kernel hscope hloop hkernel hgrid =>
      exact ⟨⟨h.registry, h.steps⟩, List.suffix_rfl⟩
  | addKernelInput handle scope hscope =>
      exact ⟨h.modifyNode _ fun _ => Node.payload_addInput, List.suffix_rfl⟩
  | addKernelOutput handle scope hscope =>
      exact ⟨h.modifyNode _ fun _ => Node.payload_addOutput, List.suffix_rfl⟩
  | setVisualize ref visualize hopen =>
      exact ⟨h.modifyNode _ fun _ _ => rfl, List.suffix_rfl⟩

namespace Context

variable {c : Context}

/-- Every history keeps the steps numbered, and keeps the bindings there are. -/
theorem IsNumbered.after (h : c.IsNumbered) (history : History) :
    (c.after history).IsNumbered ∧ c.registry.bindings <:+ (c.after history).registry.bindings := by
  refine after_induction
    (P := fun d => d.IsNumbered ∧ c.registry.bindings <:+ d.registry.bindings) history
    ⟨h, List.suffix_rfl⟩ ?_ ?_
  · intro d thread ⟨hd, hkept⟩
    exact ⟨⟨hd.registry, hd.steps⟩, hkept⟩
  · intro d operation changed ⟨hd, hkept⟩ hstep
    obtain ⟨hchanged, hmore⟩ := hstep.numbered hd
    exact ⟨hchanged, hkept.trans hmore⟩

/-- The steps of a fresh context are numbered. -/
theorem isNumbered_fresh (id : ContextId) : (fresh id).IsNumbered :=
  ⟨.empty, nofun⟩

/-! ## Recording a step -/

end Context

end TileTrace
