import TileTrace.Proofs.SlotFilling
import TileTrace.Proofs.SlotPaths

/-!
# Binding replaces slots

What does binding change, and what does it keep? `Replaces` says of two
coordinates that one is the other with new coordinates at some paths: these are
there, everything beside the paths is as before, and so is the number of elements
of every composite along them. `replaces_fill` says that filling replaces the
first slots by the fillings in order. The main theorems are `bind_replaces`, that
binding replaces the first slot and finds one exactly when there is one, and
`bind_composes`, that binding twice is binding once with what the first one
brings, and binding bound coordinates one after the other fills the slots in
order.
-/

namespace TileTrace.Coordinate

/-- One coordinate is the other with new coordinates at the given paths. -/
structure Replaces (changes : List (Path × Coordinate)) (c d : Coordinate) : Prop where
  /-- Each path leads to its new coordinate. -/
  changed : ∀ {path : Path} {w : Coordinate}, (path, w) ∈ changes → d.subtree? path = some w
  /-- A path that is neither above nor below one of them leads to the same as before. -/
  kept : ∀ {path : Path}, (∀ change ∈ changes, ¬path <+: change.1 ∧ ¬change.1 <+: path) →
    d.subtree? path = c.subtree? path
  /-- Above them there are composites with as many elements as before. -/
  arity : ∀ {path above : Path} {w : Coordinate}, (path, w) ∈ changes → above <+: path →
    above ≠ path → ∃ elements elements', c.subtree? above = some (composite elements) ∧
      d.subtree? above = some (composite elements') ∧ elements'.length = elements.length

/-! ## Which filling goes where -/

/-- An element of a filled list is filled with what the elements before it leave over. -/
theorem getElem?_fillAll : ∀ (cs fillings : List Coordinate) (i : Nat),
    (fillAll cs fillings)[i]? =
      cs[i]?.map fun c => c.fill (fillings.drop (unboundCounts (cs.take i)))
  | [], _, _ => rfl
  | _ :: _, _, 0 => rfl
  | c :: cs, fillings, i + 1 => by
      rw [fillAll, List.getElem?_cons_succ, getElem?_fillAll cs, List.getElem?_cons_succ,
        List.take_succ_cons, unboundCounts, List.drop_drop]

/-- The pairs of a list in two parts: the second part goes on where the first part ends. -/
theorem zip_append_left {α β : Type} (xs ys : List α) (zs : List β) :
    (xs ++ ys).zip zs = xs.zip zs ++ ys.zip (zs.drop xs.length) := by
  induction xs generalizing zs with
  | nil => rfl
  | cons x xs ih =>
      cases zs with
      | nil => simp
      | cons z zs => simp [ih]

/-- A slot of elements with its filling is a slot of one of them, with its filling from what the
elements before it leave over. -/
theorem mem_zip_slotsFrom {path : Path} {w : Coordinate} :
    ∀ {n : Nat} {cs fillings : List Coordinate},
    (path, w) ∈ (slotsFrom n cs).zip fillings ↔
      ∃ i c, cs[i]? = some c ∧
        ∃ q, (q, w) ∈ c.slots.zip (fillings.drop (unboundCounts (cs.take i))) ∧
          path = (n + i) :: q
  | n, [], _ => by simp [slotsFrom]
  | n, c :: cs, fillings => by
      rw [slotsFrom, zip_append_left, List.mem_append, List.length_map, length_slots,
        mem_zip_slotsFrom, List.zip_map_left, List.mem_map]
      constructor
      · rintro (⟨⟨q, w⟩, hq, heq⟩ | ⟨i, d, hd, q, hq, rfl⟩)
        · cases heq
          exact ⟨0, c, rfl, q, hq, rfl⟩
        · rw [List.drop_drop] at hq
          exact ⟨i + 1, d, hd, q, hq, by rw [Nat.add_right_comm, Nat.add_assoc]⟩
      · rintro ⟨i, d, hd, q, hq, rfl⟩
        cases i with
        | zero =>
            cases hd
            exact .inl ⟨(q, w), hq, rfl⟩
        | succ i =>
            refine .inr ⟨i, d, hd, q, ?_, by rw [Nat.add_right_comm, Nat.add_assoc]⟩
            rwa [List.drop_drop]

/-- A slot of a composite with its filling is a slot of one of the elements. -/
theorem mem_zip_slots_composite {elements fillings : List Coordinate} {path : Path}
    {w : Coordinate} :
    (path, w) ∈ (composite elements).slots.zip fillings ↔
      ∃ i c, elements[i]? = some c ∧
        ∃ q, (q, w) ∈ c.slots.zip (fillings.drop (unboundCounts (elements.take i))) ∧
          path = i :: q := by
  simp only [slots, mem_zip_slotsFrom, Nat.zero_add]

/-- Without a slot or without a filling nothing changes. -/
theorem fill_of_zip_eq_nil {c : Coordinate} {fillings : List Coordinate}
    (h : c.slots.zip fillings = []) : c.fill fillings = c := by
  obtain hslots | rfl := List.zip_eq_nil_iff.1 h
  · exact fill_of_unboundCount c fillings (slots_eq_nil.1 hslots)
  · exact fill_nil c

/-- Filling replaces the first slots by the fillings, and nothing else. -/
theorem replaces_fill (c : Coordinate) (fillings : List Coordinate) :
    Replaces (c.slots.zip fillings) c (c.fill fillings) := by
  induction c using elements_induction generalizing fillings with
  | unbound =>
      cases fillings with
      | nil => exact ⟨nofun, fun _ => rfl, nofun⟩
      | cons w ws =>
          refine ⟨fun h => ?_, fun h => ?_, fun h habove hne => ?_⟩
          · cases List.mem_singleton.1 h
            rfl
          · exact absurd List.nil_prefix (h ([], w) List.mem_cons_self).2
          · cases List.mem_singleton.1 h
            exact absurd (List.prefix_nil.1 habove) hne
  | bound v => exact ⟨nofun, fun _ => rfl, nofun⟩
  | composite elements ih =>
      refine ⟨fun h => ?_, fun {path} h => ?_, fun {path above w} h habove hne => ?_⟩
      · obtain ⟨i, c, hc, q, hq, rfl⟩ := mem_zip_slots_composite.1 h
        rw [fill, subtree?, getElem?_fillAll, hc]
        exact (ih c (List.mem_of_getElem? hc) _).changed hq
      · cases path with
        | nil =>
            have hnone : (composite elements).slots.zip fillings = [] :=
              List.eq_nil_iff_forall_not_mem.2 fun change hchange =>
                (h change hchange).1 List.nil_prefix
            rw [fill_of_zip_eq_nil hnone]
        | cons i path =>
            rw [fill, subtree?, subtree?, getElem?_fillAll]
            cases hc : elements[i]? with
            | none => rfl
            | some c =>
                refine (ih c (List.mem_of_getElem? hc) _).kept fun change hchange => ?_
                have hbeside := h (i :: change.1, change.2)
                  (mem_zip_slots_composite.2 ⟨i, c, hc, change.1, hchange, rfl⟩)
                simpa only [List.cons_prefix_cons, true_and] using hbeside
      · obtain ⟨i, c, hc, q, hq, rfl⟩ := mem_zip_slots_composite.1 h
        cases above with
        | nil => exact ⟨elements, _, rfl, rfl, length_fillAll elements fillings⟩
        | cons j above =>
            obtain ⟨rfl, hbelow⟩ := List.cons_prefix_cons.1 habove
            rw [fill, subtree?, subtree?, getElem?_fillAll, hc]
            exact (ih c (List.mem_of_getElem? hc) _).arity hq hbelow
              fun heq => hne (congrArg (j :: ·) heq)

/-- The filling of a slot is found at the slot. -/
theorem subtree?_fill {c : Coordinate} {fillings : List Coordinate} {j : Nat} {path : Path}
    {w : Coordinate} (hpath : c.slots[j]? = some path) (hw : fillings[j]? = some w) :
    (c.fill fillings).subtree? path = some w := by
  refine (replaces_fill c fillings).changed (List.mem_iff_getElem?.2 ⟨j, ?_⟩)
  exact List.getElem?_zip_eq_some.2 ⟨hpath, hw⟩

/-- As many fillings of slots are told apart by what they fill. -/
theorem fill_injective {c : Coordinate} {ws vs : List Coordinate}
    (hslots : ws.length ≤ c.unboundCount) (hlength : ws.length = vs.length)
    (h : c.fill ws = c.fill vs) : ws = vs := by
  refine List.ext_getElem hlength fun j hw hv => ?_
  have hj : j < c.slots.length := by
    rw [length_slots]
    omega
  have hpath := List.getElem?_eq_getElem hj
  have hfilled := subtree?_fill hpath (List.getElem?_eq_getElem hw)
  rw [h, subtree?_fill hpath (List.getElem?_eq_getElem hv)] at hfilled
  exact (Option.some.inj hfilled).symm

/-! ## Binding -/

/-- Binding finds a slot exactly when there is one and never fails. The first slot is replaced, so
its own slots take its place, and nothing else changes. Without a slot nothing changes at all. -/
theorem bind_replaces (c w : Coordinate) :
    (∀ e, tryBind w c ≠ .error e) ∧
    (tryBind w c = .ok none ↔ ∀ path, c.subtree? path ≠ some unbound) ∧
    (tryBind w c = .ok none ∧ c.bind w = c ∨
      ∃ path, c.IsFirstSlot path ∧ tryBind w c = .ok (some (c.bind w)) ∧
        Replaces [(path, w)] c (c.bind w) ∧
        ((c.bind w).unboundCount : Int) = c.unboundCount - 1 + w.unboundCount) := by
  have hnone : (∀ path, c.subtree? path ≠ some unbound) ↔ c.unboundCount = 0 := by
    rw [← slots_eq_nil, List.eq_nil_iff_forall_not_mem]
    exact forall_congr' fun path => not_congr mem_slots.symm
  rw [hnone, tryBind_eq_fill, bind_eq_fill]
  refine ⟨nofun, by simp, ?_⟩
  cases hslots : c.slots with
  | nil =>
      have hcount := slots_eq_nil.1 hslots
      exact .inl ⟨by rw [if_pos hcount], fill_of_unboundCount c _ hcount⟩
  | cons path others =>
      have hcount : c.unboundCount ≠ 0 := fun h => by simp [slots_eq_nil.2 h] at hslots
      refine .inr ⟨path, isFirstSlot_of_slots hslots, by rw [if_neg hcount], ?_, ?_⟩
      · have hreplaces := replaces_fill c [w]
        rwa [hslots, List.zip_cons_cons, List.zip_nil_right] at hreplaces
      · have hleft := unboundCount_fill_take c [w]
        rw [List.take_of_length_le (Nat.one_le_iff_ne_zero.2 hcount)] at hleft
        simp only [List.length_singleton, unboundCounts, Nat.add_zero] at hleft
        omega

/-- A fully bound coordinate has no slots. -/
theorem fullyBound_iff {c : Coordinate} : c.fullyBound = true ↔ c.unboundCount = 0 := by
  simp [fullyBound]

/-- Filling behind a bound coordinate goes on with the next slot. -/
theorem fill_bind_of_fullyBound (c : Coordinate) {w : Coordinate} (hw : w.fullyBound = true)
    (ws : List Coordinate) : (c.bind w).fill ws = c.fill (w :: ws) := by
  have hbound : ∀ u ∈ [w], u.unboundCount = 0 := by
    simpa using fullyBound_iff.1 hw
  rw [bind_eq_fill, fill_fill_of_bound c ws hbound]
  rfl

/-- Binding bound coordinates one after the other is filling with all of them. -/
theorem foldl_bind (c : Coordinate) {ws : List Coordinate} (h : ∀ w ∈ ws, w.fullyBound = true) :
    ws.foldl bind c = c.fill ws := by
  induction ws generalizing c with
  | nil => exact (fill_nil c).symm
  | cons w ws ih =>
      obtain ⟨hw, hws⟩ := List.forall_mem_cons.1 h
      rw [List.foldl_cons, ih (c.bind w) hws, fill_bind_of_fullyBound c hw]

/-- Binding into a coordinate that was bound is binding into the slots that it brought, if it
brought any, and into the second slot otherwise. Bound coordinates go to the first slots one by
one, and those that are left over go nowhere. -/
theorem bind_composes (c w v : Coordinate) (ws : List Coordinate) :
    (w.fullyBound = false → (c.bind w).bind v = c.bind (w.bind v)) ∧
    (w.fullyBound = true → (c.bind w).bind v = c.fill [w, v]) ∧
    ((∀ u ∈ ws, u.fullyBound = true) → ws.foldl bind c = c.fill ws) ∧
    ∀ fillings, (c.slots.zip fillings).length = min c.unboundCount fillings.length ∧
      Replaces (c.slots.zip fillings) c (c.fill fillings) := by
  refine ⟨fun hw => ?_, fun hw => ?_, foldl_bind c, fun fillings => ⟨?_, replaces_fill c fillings⟩⟩
  · have hslots : w.unboundCount ≠ 0 := by simpa [fullyBound] using hw
    have hused : [v].drop w.unboundCount = [] :=
      List.drop_eq_nil_of_le (Nat.one_le_iff_ne_zero.2 hslots)
    simp only [bind_eq_fill, fill_fill, fillAll, unboundCounts, Nat.add_zero, hused,
      List.append_nil]
  · rw [bind_eq_fill (c.bind w), fill_bind_of_fullyBound c hw]
  · rw [List.length_zip, length_slots]

/-- A nested coordinate with two slots, which gets a coordinate with a slot of its own, and one
bound coordinate more than it has slots. -/
theorem bind_composes_nested :
    let c : Coordinate :=
      composite [bound (.concrete 1), composite [composite [], unbound], unbound]
    let w : Coordinate := composite [unbound, bound (.concrete 2)]
    let v : Coordinate := bound (.symbolic "i")
    w.fullyBound = false ∧ (c.bind w).bind v = c.bind (w.bind v) ∧
    v.fullyBound = true ∧ (c.bind v).bind w = c.fill [v, w] ∧
    (∀ u ∈ [v, composite [], v], u.fullyBound = true) ∧
    [v, composite [], v].foldl bind c =
      composite [bound (.concrete 1), composite [composite [], v], composite []] := by
  intro c w v
  have hbound : ∀ u ∈ [v, composite [], v], u.fullyBound = true := by decide
  exact ⟨rfl, (bind_composes c w v []).1 rfl, rfl, (bind_composes c v w []).2.1 rfl, hbound,
    (bind_composes c w v [v, composite [], v]).2.2.1 hbound⟩

end TileTrace.Coordinate
