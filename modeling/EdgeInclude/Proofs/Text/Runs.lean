import Mathlib.Data.List.TakeWhile

/-!
# Runs

A run of elements of one kind at the front of a list, and what follows it.
-/

namespace EdgeInclude.Text

variable {α : Type} {p : α → Bool} {a : α} {run rest as : List α}

/-- What follows a run does not begin with an element of its kind. -/
theorem eq_false_of_mem_head?_dropWhile (h : a ∈ (as.dropWhile p).head?) : p a = false := by
  have hnot := List.head?_dropWhile_not p as
  rwa [Option.mem_def.mp h] at hnot

/-- A run is taken up to where it stops. -/
theorem takeWhile_dropWhile_append (hrun : ∀ a ∈ run, p a = true)
    (hstop : ∀ a ∈ rest.head?, p a = false) :
    (run ++ rest).takeWhile p = run ∧ (run ++ rest).dropWhile p = rest := by
  rw [List.takeWhile_append_of_pos hrun, List.dropWhile_append_of_pos hrun]
  cases rest with
  | nil => exact ⟨List.append_nil run, rfl⟩
  | cons a rest =>
    have ha : ¬ p a = true := Bool.eq_false_iff.mp (hstop a rfl)
    rw [List.takeWhile_cons_of_neg ha, List.dropWhile_cons_of_neg ha, List.append_nil]
    exact ⟨rfl, rfl⟩

end EdgeInclude.Text
