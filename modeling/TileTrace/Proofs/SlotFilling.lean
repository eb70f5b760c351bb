import TileTrace.Coordinate

/-!
# Filling slots

Binding fills one slot at a time. `Coordinate.fill` fills the slots of a
coordinate in one pass: the slots in depth-first order from the left get the
fillings in their order, and everything else stays. `bind_eq_fill` says that
binding is filling with one coordinate, `fill_fill` that filling twice is filling
once, with the second fillings in the slots of the first ones, and `fill_bind`
that binding after filling with bound coordinates is filling with one more.
-/

namespace TileTrace.Coordinate

mutual
/-- The coordinate with its slots filled in depth-first order from the left. Slots that are left
over stay, and so do fillings. -/
def fill : Coordinate → List Coordinate → Coordinate
  | unbound, fillings => fillings.headD unbound
  | bound value, _ => bound value
  | composite elements, fillings => composite (fillAll elements fillings)

/-- The list with the slots of its coordinates filled. The slots of a coordinate come before those
of the coordinates after it. -/
def fillAll : List Coordinate → List Coordinate → List Coordinate
  | [], _ => []
  | element :: elements, fillings =>
      fill element fillings :: fillAll elements (fillings.drop element.unboundCount)
end

mutual
/-- Without fillings all slots stay. -/
@[simp] theorem fill_nil : ∀ c : Coordinate, c.fill [] = c
  | unbound => rfl
  | bound _ => rfl
  | composite elements => by rw [fill, fillAll_nil elements]

/-- Without fillings all slots of a list stay. -/
@[simp] theorem fillAll_nil : ∀ cs : List Coordinate, fillAll cs [] = cs
  | [] => rfl
  | c :: cs => by rw [fillAll, fill_nil c, List.drop_nil, fillAll_nil cs]
end

mutual
/-- Without slots all fillings are left over. -/
theorem fill_of_unboundCount : ∀ (c : Coordinate) (fillings : List Coordinate),
    c.unboundCount = 0 → c.fill fillings = c
  | unbound, _, h => nomatch h
  | bound _, _, _ => rfl
  | composite elements, fillings, h => by rw [fill, fillAll_of_unboundCounts elements fillings h]

/-- Without slots in a list all fillings are left over. -/
theorem fillAll_of_unboundCounts : ∀ (cs fillings : List Coordinate),
    unboundCounts cs = 0 → fillAll cs fillings = cs
  | [], _, _ => rfl
  | c :: cs, fillings, h => by
      obtain ⟨hc, hcs⟩ := Nat.add_eq_zero_iff.1 h
      rw [fillAll, fill_of_unboundCount c fillings hc, fillAll_of_unboundCounts cs _ hcs]
end

/-! ## Binding -/

mutual
/-- The first slot is the one that is filled, if there is one. -/
theorem tryBind_eq_fill (filling : Coordinate) : ∀ c : Coordinate,
    tryBind filling c = .ok (if c.unboundCount = 0 then none else some (c.fill [filling]))
  | unbound => rfl
  | bound _ => rfl
  | composite elements => by
      rw [tryBind, tryBindAny_eq_fillAll filling elements]
      by_cases hcount : unboundCounts elements = 0 <;>
        simp [unboundCount, fill, hcount, Bind.bind, Except.bind, Pure.pure, Except.pure]

/-- The first slot of a list is the one that is filled, if there is one. -/
theorem tryBindAny_eq_fillAll (filling : Coordinate) : ∀ cs : List Coordinate,
    tryBindAny filling cs =
      .ok (if unboundCounts cs = 0 then none else some (fillAll cs [filling]))
  | [] => rfl
  | c :: cs => by
      rw [tryBindAny, tryBind_eq_fill filling c, tryBindAny_eq_fillAll filling cs]
      by_cases hc : c.unboundCount = 0
      · have hstays : c.fill [filling] = c := fill_of_unboundCount c _ hc
        by_cases hcs : unboundCounts cs = 0 <;>
          simp [fullyBound, unboundCounts, fillAll, hc, hcs, hstays, Bind.bind, Except.bind,
            Pure.pure, Except.pure]
      · have hused : [filling].drop c.unboundCount = [] :=
          List.drop_eq_nil_of_le (Nat.one_le_iff_ne_zero.2 hc)
        simp [fullyBound, unboundCounts, fillAll, hc, hused, Bind.bind, Except.bind, Pure.pure,
          Except.pure]
end

/-- Binding is filling with one coordinate. -/
theorem bind_eq_fill (c filling : Coordinate) : c.bind filling = c.fill [filling] := by
  rw [bind, tryBind_eq_fill]
  by_cases hcount : c.unboundCount = 0
  · rw [if_pos hcount, fill_of_unboundCount c _ hcount]
  · rw [if_neg hcount]

/-! ## Slots that are left -/

/-- The slots of two lists are counted together. -/
theorem unboundCounts_append (cs ds : List Coordinate) :
    unboundCounts (cs ++ ds) = unboundCounts cs + unboundCounts ds := by
  induction cs with
  | nil => exact (Nat.zero_add _).symm
  | cons c cs ih => rw [List.cons_append, unboundCounts, ih, unboundCounts, Nat.add_assoc]

/-- The slots of a list are those of its first coordinates and those of the others. -/
theorem unboundCounts_take_add_drop (n : Nat) (cs : List Coordinate) :
    unboundCounts (cs.take n) + unboundCounts (cs.drop n) = unboundCounts cs := by
  rw [← unboundCounts_append, List.take_append_drop]

/-- Bound coordinates have no slots. -/
theorem unboundCounts_eq_zero : ∀ {cs : List Coordinate},
    (∀ w ∈ cs, w.unboundCount = 0) → unboundCounts cs = 0
  | [], _ => rfl
  | c :: cs, h => by
      obtain ⟨hc, hcs⟩ := List.forall_mem_cons.1 h
      rw [unboundCounts, hc, unboundCounts_eq_zero hcs]

mutual
/-- Each filling takes a slot away and brings its own slots. -/
theorem unboundCount_fill_take : ∀ (c : Coordinate) (fillings : List Coordinate),
    (c.fill fillings).unboundCount =
      c.unboundCount - fillings.length + unboundCounts (fillings.take c.unboundCount)
  | unbound, [] => rfl
  | unbound, w :: ws => by simp [fill, unboundCount, unboundCounts]
  | bound _, fillings => by simp [fill, unboundCount, unboundCounts]
  | composite elements, fillings => unboundCounts_fillAll_take elements fillings

/-- Each filling takes a slot of a list away and brings its own slots. -/
theorem unboundCounts_fillAll_take : ∀ cs fillings : List Coordinate,
    unboundCounts (fillAll cs fillings) =
      unboundCounts cs - fillings.length + unboundCounts (fillings.take (unboundCounts cs))
  | [], fillings => by simp [fillAll, unboundCounts]
  | c :: cs, fillings => by
      have htaken := unboundCounts_append (fillings.take c.unboundCount)
        ((fillings.drop c.unboundCount).take (unboundCounts cs))
      rw [fillAll, unboundCounts, unboundCount_fill_take c fillings,
        unboundCounts_fillAll_take cs _, unboundCounts, List.take_add, htaken, List.length_drop]
      omega
end

/-! ## Filling twice -/

/-- The coordinates of a filled list after the first ones are filled with what is left over from
these. -/
theorem drop_fillAll : ∀ (n : Nat) (cs fillings : List Coordinate),
    (fillAll cs fillings).drop n =
      fillAll (cs.drop n) (fillings.drop (unboundCounts (cs.take n)))
  | 0, _, _ => rfl
  | _ + 1, [], _ => rfl
  | n + 1, c :: cs, fillings => by
      rw [fillAll, List.drop_succ_cons, drop_fillAll n cs, List.drop_succ_cons, List.take_succ_cons,
        unboundCounts, List.drop_drop]

/-- Filling a list keeps its length. -/
@[simp] theorem length_fillAll : ∀ cs fillings : List Coordinate,
    (fillAll cs fillings).length = cs.length
  | [], _ => rfl
  | c :: cs, fillings => by
      rw [fillAll, List.length_cons, length_fillAll cs, List.length_cons]

mutual
/-- Filling twice is filling once: the second fillings go to the slots of the first ones, and what
is left over of them comes after the first ones. -/
theorem fill_fill : ∀ (c : Coordinate) (fillings more : List Coordinate),
    (c.fill fillings).fill more =
      c.fill (fillAll fillings more ++ more.drop (unboundCounts fillings))
  | unbound, [], _ => rfl
  | unbound, _ :: _, _ => rfl
  | bound _, _, _ => rfl
  | composite elements, fillings, more => by
      rw [fill, fill, fillAll_fillAll elements fillings more, fill]

/-- Filling a list twice is filling it once. -/
theorem fillAll_fillAll : ∀ cs fillings more : List Coordinate,
    fillAll (fillAll cs fillings) more =
      fillAll cs (fillAll fillings more ++ more.drop (unboundCounts fillings))
  | [], _, _ => rfl
  | c :: cs, fillings, more => by
      have hsplit := unboundCounts_take_add_drop c.unboundCount fillings
      -- What the first coordinate leaves of the second fillings goes to the other fillings.
      have hothers : fillAll (fillings.drop c.unboundCount)
            (more.drop (c.fill fillings).unboundCount) =
          (fillAll fillings more).drop c.unboundCount := by
        rw [drop_fillAll, unboundCount_fill_take]
        obtain hfew | hmany := Nat.lt_or_ge fillings.length c.unboundCount
        · rw [List.drop_eq_nil_of_le (Nat.le_of_lt hfew), fillAll, fillAll]
        · rw [Nat.sub_eq_zero_of_le hmany, Nat.zero_add]
      have hmore : (more.drop (c.fill fillings).unboundCount).drop
            (unboundCounts (fillings.drop c.unboundCount)) =
          (more.drop (unboundCounts fillings)).drop (c.unboundCount - fillings.length) := by
        rw [unboundCount_fill_take, List.drop_drop, List.drop_drop]
        congr 1
        omega
      rw [fillAll, fillAll, fill_fill c fillings more, fillAll_fillAll cs _ _, hothers, hmore,
        fillAll, List.drop_append, length_fillAll]
end

/-! ## Filling with bound coordinates -/

/-- Each bound coordinate takes a slot away. -/
theorem unboundCount_fill (c : Coordinate) (fillings : List Coordinate)
    (h : ∀ w ∈ fillings, w.unboundCount = 0) :
    (c.fill fillings).unboundCount = c.unboundCount - fillings.length := by
  rw [unboundCount_fill_take, unboundCounts_eq_zero fun w hw => h w (List.mem_of_mem_take hw),
    Nat.add_zero]

/-- After bound coordinates, filling goes on with the slots after theirs. -/
theorem fill_fill_of_bound (c : Coordinate) {fillings : List Coordinate} (more : List Coordinate)
    (h : ∀ w ∈ fillings, w.unboundCount = 0) :
    (c.fill fillings).fill more = c.fill (fillings ++ more) := by
  have hbound : unboundCounts fillings = 0 := unboundCounts_eq_zero h
  rw [fill_fill, fillAll_of_unboundCounts _ _ hbound, hbound, List.drop_zero]

/-- Binding one more coordinate is filling with one more. -/
theorem fill_bind (c filling : Coordinate) (fillings : List Coordinate)
    (h : ∀ w ∈ fillings, w.unboundCount = 0) :
    (c.fill fillings).bind filling = c.fill (fillings ++ [filling]) := by
  rw [bind_eq_fill, fill_fill_of_bound c [filling] h]

example (v w : Value) : ((composite [unbound, composite [unbound, unbound]]).fill [bound v]).bind
    (bound w) = composite [bound v, composite [bound w, unbound]] := rfl

end TileTrace.Coordinate
