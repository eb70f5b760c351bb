/-!
# Pieces of a text

A text falls into pieces at every occurrence of a separator. Pieces may be
empty, and there is one piece more than there are separators.
-/

namespace TileTrace

/-- The pieces of a text between the occurrences of a separator. -/
def pieces (separator : Char) : List Char → List (List Char)
  | [] => [[]]
  | c :: cs =>
      if c = separator then [] :: pieces separator cs
      else match pieces separator cs with
        | [] => [[c]]
        | piece :: others => (c :: piece) :: others

/-- There is one piece more than there are separators. -/
theorem length_pieces (separator : Char) (cs : List Char) :
    (pieces separator cs).length = cs.count separator + 1 := by
  induction cs with
  | nil => rfl
  | cons c cs ih =>
      unfold pieces
      by_cases h : c = separator
      · simp [h, ih]
      · cases hrest : pieces separator cs with
        | nil => simp [hrest] at ih
        | cons piece others => simp [hrest] at ih; simp [h, ih]

/-- The pieces are those of `List.splitOn`. -/
theorem pieces_eq_splitOn (separator : Char) (cs : List Char) :
    pieces separator cs = cs.splitOn separator := by
  induction cs with
  | nil => rfl
  | cons c cs ih =>
      rw [pieces, ih, List.splitOn_eq_splitOnP, List.splitOn_eq_splitOnP,
        List.splitOnP_cons_eq_if_modifyHead]
      by_cases h : c = separator
      · rw [if_pos h, if_pos (beq_iff_eq.2 h)]
      · rw [if_neg h, if_neg (mt beq_iff_eq.1 h)]
        cases hrest : cs.splitOnP (· == separator) with
        | nil => exact absurd hrest (List.splitOnP_ne_nil _ _)
        | cons piece others => rfl

/-- A separator cuts a text in two. -/
theorem pieces_append_separator (separator : Char) (text rest : List Char) :
    pieces separator (text ++ separator :: rest) =
      pieces separator text ++ pieces separator rest := by
  simp only [pieces_eq_splitOn, List.splitOn_append_cons_self]

/-- A text without separators is one piece. -/
theorem pieces_eq_singleton {separator : Char} {text : List Char} (h : separator ∉ text) :
    pieces separator text = [text] := by
  rw [pieces_eq_splitOn, List.splitOn_eq_singleton h]

/-- No piece has a separator in it. -/
theorem notMem_of_mem_pieces {separator : Char} {cs piece : List Char}
    (h : piece ∈ pieces separator cs) : separator ∉ piece := by
  induction cs generalizing piece with
  | nil =>
      rw [List.mem_singleton.1 h]
      exact List.not_mem_nil
  | cons c cs ih =>
      rw [pieces] at h
      split at h
      · rcases List.mem_cons.1 h with rfl | h
        · exact List.not_mem_nil
        · exact ih h
      · next hc =>
        split at h
        · rw [List.mem_singleton.1 h]
          simpa using Ne.symm hc
        · next first others hfirst =>
          rcases List.mem_cons.1 h with rfl | h
          · rw [List.mem_cons, not_or]
            exact ⟨Ne.symm hc, ih (hfirst ▸ List.mem_cons_self)⟩
          · exact ih (hfirst ▸ List.mem_cons_of_mem _ h)

/-- A piece of one kind of characters reaches up to the first character of another kind. -/
theorem span_append {p : Char → Bool} {text rest : List Char} (htext : ∀ c ∈ text, p c = true)
    (hrest : ∀ c, rest.head? = some c → p c = false) :
    (text ++ rest).takeWhile p = text ∧ (text ++ rest).dropWhile p = rest := by
  rw [List.takeWhile_append_of_pos htext, List.dropWhile_append_of_pos htext]
  cases rest with
  | nil => simp
  | cons c rest => simp [hrest c rfl]

end TileTrace
