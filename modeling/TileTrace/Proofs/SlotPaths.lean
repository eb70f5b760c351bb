import TileTrace.Coordinate

/-!
# Paths to slots

A path goes down from a coordinate, at every composite to the element at one
position. `Coordinate.slots` lists the paths to the slots in depth-first order
from the left. `mem_slots` says that these are all paths to slots, and
`sorted_slots` that they are listed in the order of `Path.ComesBefore`, so the
first one that is listed is the first slot.
-/

namespace TileTrace.Coordinate

/-- A way down from a coordinate: the positions of the elements it goes through. -/
abbrev Path := List Nat

/-- The coordinate at the end of a path, if the path stays inside. -/
def subtree? : Path → Coordinate → Option Coordinate
  | [], c => some c
  | i :: path, composite elements => elements[i]?.bind (subtree? path)
  | _ :: _, _ => none

mutual
/-- The paths to the slots, in depth-first order from the left. -/
def slots : Coordinate → List Path
  | unbound => [[]]
  | bound _ => []
  | composite elements => slotsFrom 0 elements

/-- The paths to the slots of elements, the first of which stands at the given position. -/
def slotsFrom (position : Nat) : List Coordinate → List Path
  | [] => []
  | element :: elements =>
      (slots element).map (position :: ·) ++ slotsFrom (position + 1) elements
end

mutual
/-- There are as many paths to slots as slots. -/
theorem length_slots : ∀ c : Coordinate, c.slots.length = c.unboundCount
  | unbound => rfl
  | bound _ => rfl
  | composite elements => length_slotsFrom 0 elements

/-- There are as many paths to slots of elements as slots. -/
theorem length_slotsFrom : ∀ (n : Nat) (cs : List Coordinate),
    (slotsFrom n cs).length = unboundCounts cs
  | _, [] => rfl
  | n, c :: cs => by
      rw [slotsFrom, List.length_append, List.length_map, length_slots c, length_slotsFrom _ cs,
        unboundCounts]
end

/-- There are no paths to slots exactly when there are no slots. -/
theorem slots_eq_nil {c : Coordinate} : c.slots = [] ↔ c.unboundCount = 0 := by
  rw [← length_slots, List.length_eq_zero_iff]

/-- A slot of elements is a slot of one of them. -/
theorem mem_slotsFrom {path : Path} : ∀ {n : Nat} {cs : List Coordinate},
    path ∈ slotsFrom n cs ↔
      ∃ i c, cs[i]? = some c ∧ ∃ q ∈ c.slots, path = (n + i) :: q
  | n, [] => by simp [slotsFrom]
  | n, c :: cs => by
      rw [slotsFrom, List.mem_append, List.mem_map, mem_slotsFrom]
      constructor
      · rintro (⟨q, hq, rfl⟩ | ⟨i, d, hd, q, hq, rfl⟩)
        · exact ⟨0, c, rfl, q, hq, rfl⟩
        · exact ⟨i + 1, d, hd, q, hq, by rw [Nat.add_right_comm, Nat.add_assoc]⟩
      · rintro ⟨i, d, hd, q, hq, rfl⟩
        cases i with
        | zero =>
            cases hd
            exact .inl ⟨q, hq, rfl⟩
        | succ i => exact .inr ⟨i, d, hd, q, hq, by rw [Nat.add_right_comm, Nat.add_assoc]⟩

/-- The slots of a composite are those of its elements. -/
theorem mem_slots_composite {elements : List Coordinate} {path : Path} :
    path ∈ (composite elements).slots ↔
      ∃ i c, elements[i]? = some c ∧ ∃ q ∈ c.slots, path = i :: q := by
  simp only [slots, mem_slotsFrom, Nat.zero_add]

/-- What holds of slots and values, and of a composite if of its elements, holds of all
coordinates. -/
theorem elements_induction {P : Coordinate → Prop} (unbound : P .unbound)
    (bound : ∀ v, P (.bound v))
    (composite : ∀ elements, (∀ c ∈ elements, P c) → P (.composite elements)) : ∀ c, P c
  | .unbound => unbound
  | .bound v => bound v
  | .composite elements =>
      composite elements fun c _ => elements_induction unbound bound composite c

/-- The slots are where a path ends at a slot. -/
theorem mem_slots {c : Coordinate} {path : Path} :
    path ∈ c.slots ↔ c.subtree? path = some unbound := by
  induction c using elements_induction generalizing path with
  | unbound => cases path <;> simp [slots, subtree?]
  | bound v => cases path <;> simp [slots, subtree?]
  | composite elements ih =>
      rw [mem_slots_composite]
      cases path with
      | nil => simp [subtree?]
      | cons i path =>
          simp only [subtree?, Option.bind_eq_some_iff, List.cons.injEq]
          constructor
          · rintro ⟨i, c, hc, q, hq, rfl, rfl⟩
            exact ⟨c, hc, (ih c (List.mem_of_getElem? hc)).1 hq⟩
          · rintro ⟨c, hc, hq⟩
            exact ⟨i, c, hc, path, (ih c (List.mem_of_getElem? hc)).2 hq, rfl, rfl⟩

/-! ## The order of slots -/

/-- A depth-first walk from the left comes to the first path earlier: where the paths part, it goes
on to an element further left. -/
def Path.ComesBefore (p q : Path) : Prop :=
  List.Lex (· < ·) p q

/-- The slots of elements are listed in the order of the walk if those of each one are. -/
theorem sorted_slotsFrom : ∀ (n : Nat) {cs : List Coordinate},
    (∀ c ∈ cs, c.slots.Pairwise Path.ComesBefore) → (slotsFrom n cs).Pairwise Path.ComesBefore
  | _, [], _ => .nil
  | n, c :: cs, h => by
      obtain ⟨hc, hcs⟩ := List.forall_mem_cons.1 h
      rw [slotsFrom, List.pairwise_append]
      refine ⟨?_, sorted_slotsFrom (n + 1) hcs, ?_⟩
      · exact hc.map _ fun _ _ hbefore => List.Lex.cons hbefore
      · intro p hp q hq
        obtain ⟨p', -, rfl⟩ := List.mem_map.1 hp
        obtain ⟨i, d, -, q', -, rfl⟩ := mem_slotsFrom.1 hq
        exact List.Lex.rel (by omega)

/-- The slots are listed in the order of the walk. -/
theorem sorted_slots (c : Coordinate) : c.slots.Pairwise Path.ComesBefore := by
  induction c using elements_induction with
  | unbound => exact List.pairwise_singleton _ _
  | bound v => exact .nil
  | composite elements ih => exact sorted_slotsFrom 0 ih

/-- The path leads to a slot, and every other slot comes after it. -/
def IsFirstSlot (c : Coordinate) (path : Path) : Prop :=
  c.subtree? path = some unbound ∧
    ∀ other, c.subtree? other = some unbound → other = path ∨ path.ComesBefore other

/-- The first slot that is listed is the first slot. -/
theorem isFirstSlot_of_slots {c : Coordinate} {path : Path} {others : List Path}
    (h : c.slots = path :: others) : c.IsFirstSlot path := by
  have hsorted := c.sorted_slots
  rw [h, List.pairwise_cons] at hsorted
  refine ⟨mem_slots.1 (h ▸ List.mem_cons_self), fun other hother => ?_⟩
  exact (List.mem_cons.1 (h ▸ mem_slots.2 hother)).imp_right (hsorted.1 other)

end TileTrace.Coordinate
