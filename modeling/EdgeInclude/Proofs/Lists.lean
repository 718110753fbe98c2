/-!
# Lists

A change in one place of a list, and what is left of a list without its repetitions.
-/

namespace EdgeInclude

variable {α β : Type}

/-- A list whose element at an index is changed keeps what is before it and after it. -/
theorem exists_modify_split {l : List α} {i : Nat} {a : α} (h : l[i]? = some a) :
    ∃ before after, l = before ++ a :: after ∧
      ∀ change : α → α, l.modify i change = before ++ change a :: after := by
  obtain ⟨hi, rfl⟩ := List.getElem?_eq_some_iff.mp h
  refine ⟨l.take i, l.drop (i + 1), ?_, fun change => ?_⟩
  · rw [← List.drop_eq_getElem_cons hi, List.take_append_drop]
  · rw [List.modify_eq_take_cons_drop hi]

/-- What a change leaves alone is the same all over the list. -/
theorem map_modify_of_forall {view : α → β} {change : α → α}
    (h : ∀ a, view (change a) = view a) (l : List α) (i : Nat) :
    (l.modify i change).map view = l.map view := by
  refine List.ext_getElem? fun j => ?_
  rw [List.getElem?_map, List.getElem?_map, List.getElem?_modify]
  cases l[j]? with
  | none => rfl
  | some a =>
    show some (view (if i = j then change a else a)) = some (view a)
    split
    · rw [h]
    · rfl

/-- An element stands where it did, or it is the one at the end. -/
theorem getElem?_concat_eq_some_iff {l : List α} {a b : α} {i : Nat} :
    (l ++ [a])[i]? = some b ↔ l[i]? = some b ∨ i = l.length ∧ a = b := by
  rcases Nat.lt_trichotomy i l.length with hi | rfl | hi
  · rw [List.getElem?_append_left hi]
    simp [Nat.ne_of_lt hi]
  · simp
  · rw [List.getElem?_eq_none (Nat.le_of_lt hi), List.getElem?_eq_none (by simp; omega)]
    simp [Nat.ne_of_gt hi]

/-- An element that comes last counts only if it has not come before. -/
theorem eraseDups_concat [DecidableEq α] (l : List α) (a : α) :
    (l ++ [a]).eraseDups = if a ∈ l then l.eraseDups else l.eraseDups ++ [a] := by
  rw [List.eraseDups_append]
  by_cases ha : a ∈ l <;> simp [List.removeAll, List.eraseDups_cons, ha]

end EdgeInclude
