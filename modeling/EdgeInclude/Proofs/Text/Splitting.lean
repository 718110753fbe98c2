import Mathlib.Data.List.Basic
import EdgeInclude.Text.Search

/-!
# The pieces of a text

What a text is split into at a separator: the pieces between two separators that follow each other, or
between one and an end of the text.

* **`IsPiece`**: what stands between two separators. **`mem_splitAt_iff`**.
* **`splitAt_append_cons`**: a separator ends one piece and begins the next one.
* **`length_splitAt`**: there is one piece more than separators.
-/

namespace EdgeInclude.Text

variable {separator : Char} {cs piece rest : List Char}

/-- What stands between two separators, or between one and an end of the text. -/
def IsPiece (separator : Char) (cs piece : List Char) : Prop :=
  separator ∉ piece ∧ ∃ before after, cs = before ++ (piece ++ after) ∧
    (∀ c ∈ before.getLast?, c = separator) ∧ ∀ c ∈ after.head?, c = separator

/-- Without a separator a text is one piece. -/
theorem splitAt_of_notMem (h : separator ∉ cs) : splitAt separator cs = [cs] := by
  induction cs with
  | nil => rfl
  | cons c cs ih =>
    rw [List.mem_cons, not_or] at h
    rw [splitAt, if_neg (Ne.symm h.1), ih h.2]

/-- A separator ends one piece and begins the next one. -/
theorem splitAt_append_cons (separator : Char) (cs rest : List Char) :
    splitAt separator (cs ++ separator :: rest) =
      splitAt separator cs ++ splitAt separator rest := by
  induction cs with
  | nil =>
    show splitAt separator (separator :: rest) = [] :: splitAt separator rest
    rw [splitAt.eq_2, if_pos rfl]
  | cons c cs ih =>
    rw [List.cons_append, splitAt, splitAt, ih]
    split
    · rfl
    · cases hpieces : splitAt separator cs with
      | nil => exact absurd hpieces (splitAt_ne_nil separator cs)
      | cons => rfl

/-- What is split off is a piece. -/
theorem isPiece_of_mem_splitAt (h : piece ∈ splitAt separator cs) : IsPiece separator cs piece := by
  induction hn : cs.length using Nat.strongRecOn generalizing cs with
  | ind n ih =>
    -- the first piece ends at the first separator, and the others are pieces of what is behind it
    by_cases hmem : separator ∈ cs
    · obtain ⟨first, rest, rfl, hfirst⟩ := List.eq_append_cons_of_mem hmem
      rw [splitAt_append_cons, splitAt_of_notMem hfirst] at h
      rcases List.mem_append.mp h with h | h
      · obtain rfl := List.mem_singleton.mp h
        refine ⟨hfirst, [], separator :: rest, rfl, by simp, fun c hc => ?_⟩
        exact (Option.some.inj hc).symm
      · have hlt : rest.length < n := by
          rw [← hn, List.length_append, List.length_cons]
          omega
        obtain ⟨hpiece, before, after, rfl, hbefore, hafter⟩ := ih _ hlt h rfl
        refine ⟨hpiece, first ++ separator :: before, after, by simp, fun c hc => ?_, hafter⟩
        rw [List.getLast?_append, List.getLast?_cons] at hc
        cases hlast : before.getLast? with
        | none => simpa [hlast] using hc.symm
        | some d => exact hbefore c (by simpa [hlast] using hc)
    · rw [splitAt_of_notMem hmem] at h
      obtain rfl := List.mem_singleton.mp h
      exact ⟨hmem, [], [], by simp, by simp, by simp⟩

/-- Each piece is split off. -/
theorem mem_splitAt_of_isPiece (h : IsPiece separator cs piece) : piece ∈ splitAt separator cs := by
  obtain ⟨hpiece, before, after, rfl, hbefore, hafter⟩ := h
  have htail : piece ∈ splitAt separator (piece ++ after) := by
    cases after with
    | nil =>
      rw [List.append_nil, splitAt_of_notMem hpiece]
      exact List.mem_singleton_self piece
    | cons c after =>
      obtain rfl : c = separator := hafter c rfl
      rw [splitAt_append_cons, splitAt_of_notMem hpiece]
      exact List.mem_cons_self
  rcases List.eq_nil_or_concat before with rfl | ⟨front, c, rfl⟩
  · exact htail
  · obtain rfl : c = separator := hbefore c (by simp)
    rw [List.concat_eq_append, List.append_assoc, List.singleton_append, splitAt_append_cons]
    exact List.mem_append_right _ htail

/-- **A text is split into what stands between its separators.** -/
theorem mem_splitAt_iff : piece ∈ splitAt separator cs ↔ IsPiece separator cs piece :=
  ⟨isPiece_of_mem_splitAt, mem_splitAt_of_isPiece⟩

/-- Changing characters other than the separator changes the pieces alike. -/
theorem splitAt_map {f : Char → Char} (hf : ∀ c, f c = separator ↔ c = separator)
    (cs : List Char) : splitAt separator (cs.map f) = (splitAt separator cs).map (List.map f) := by
  induction cs with
  | nil => rfl
  | cons c cs ih =>
    rw [List.map_cons, splitAt, splitAt, ih]
    by_cases hc : c = separator
    · rw [if_pos ((hf c).mpr hc), if_pos hc]
      rfl
    · rw [if_neg (mt (hf c).mp hc), if_neg hc]
      cases splitAt separator cs <;> rfl

/-- There is one piece more than there are separators. -/
theorem length_splitAt (separator : Char) (cs : List Char) :
    (splitAt separator cs).length = cs.count separator + 1 := by
  induction cs with
  | nil => rfl
  | cons c cs ih =>
    rw [splitAt, List.count_cons]
    by_cases hc : c = separator
    · rw [if_pos hc, if_pos (beq_iff_eq.mpr hc), List.length_cons, ih]
    · rw [if_neg hc, if_neg (mt beq_iff_eq.mp hc)]
      cases hpieces : splitAt separator cs with
      | nil => exact absurd hpieces (splitAt_ne_nil separator cs)
      | cons piece pieces =>
        rw [hpieces] at ih
        exact ih

end EdgeInclude.Text
