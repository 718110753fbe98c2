import EdgeInclude.Proofs.Cancellation.Custody

/-!
# The exact reach of a cancellation

What the operations on a registry do to the flags of its tokens, said in terms of the operations
alone: which handles and waiters are left, and who was made as a child of whom. Neither the links of
the forest nor its counts of holders are mentioned.

* **`cancellation_has_exact_reach`**: after any operations, the next one raises the flags of the line
  of its token if it cancels one, and no flag else; no flag goes down; what is held below a cancelled
  token is cancelled; and a wait is over exactly if its token is cancelled.
-/

namespace EdgeInclude.Cancellation

open Registry

variable {r : Registry} {kin : List (Token × Token)} {p t u : Token}

namespace Registry.Kept

variable (hr : r.Kept kin) (hrest : ∀ p ∈ r.waiters, p.Resting r.forest)
include hr hrest

/-- No flag goes down, whatever is done next. -/
theorem isCancelled_foldl_step (ops : List Operation) (hup : r.forest.isCancelled u = true) :
    (ops.foldl Registry.step r).forest.isCancelled u = true := by
  induction ops generalizing r kin with
  | nil => exact hup
  | cons op ops ih =>
    obtain ⟨hr', hrest'⟩ := hr.step hrest op
    refine ih hr' hrest' ?_
    rw [hr.isCancelled_step hrest,
      hr.isCancelled_iff_of_effect (effect_apply r op) (Forest.lt_length_of_isCancelled hup)]
    exact .inl hup

/-- A new child has a handle of its own, and the flag of its parent. -/
theorem child_step {h : Nat} (hp : r.token? h = some p) :
    (r.step (.child h)).token? r.handles.length = some r.forest.nodes.length ∧
      (r.step (.child h)).forest.isCancelled r.forest.nodes.length = r.forest.isCancelled p := by
  have happly : r.apply (.child h) = { r with
      forest := (r.forest.child p).2, handles := r.handles ++ [some r.forest.nodes.length] } := by
    simp only [Registry.apply, hp]
    rfl
  constructor
  · have hhandles : (r.step (.child h)).handles = r.handles ++ [some r.forest.nodes.length] :=
      congrArg Registry.handles happly
    rw [token?_eq_some_iff, hhandles]
    exact List.getElem?_concat_length
  · rw [hr.isCancelled_step hrest, happly]
    exact (Forest.isCancelled_child hr.toWellFormed).trans (if_pos rfl)

end Registry.Kept

/-- **A cancellation has its exact reach.** After any operations on handles and waiters:

* one more operation raises a flag exactly if it cancels a token and the flag is one of its line: from
  parent to child, through tokens that a handle or a pending waiter holds;
* ancestors and siblings of a token that is cancelled, and all that do not descend from it, keep
  their flags;
* a flag that is up stays up;
* a child is cancelled at birth exactly if its parent is;
* a child that is held is cancelled if its parent is;
* a wait is over exactly if its token is cancelled, for every waiter that was not dropped. -/
theorem cancellation_has_exact_reach (ops : List Operation) :
    let r := ops.foldl Registry.step {}
    let kin := kinships {} ops
    (∀ op, ∀ u < r.forest.nodes.length, (r.step op).forest.isCancelled u = true ↔
      r.forest.isCancelled u = true ∨
        ∃ h t, op = .cancel h ∧ r.token? h = some t ∧ Line kin r.Holds t u) ∧
    (∀ h t u, r.token? h = some t →
      (Descends kin u t ∨ (u ≠ t ∧ ∃ p, (p, u) ∈ kin ∧ (p, t) ∈ kin) ∨
        (u ≠ t ∧ ¬ Descends kin t u)) →
      (r.step (.cancel h)).forest.isCancelled u = r.forest.isCancelled u) ∧
    (∀ (more : List Operation) u, r.forest.isCancelled u = true →
      (more.foldl Registry.step r).forest.isCancelled u = true) ∧
    (∀ h p, r.token? h = some p →
      (r.step (.child h)).token? r.handles.length = some r.forest.nodes.length ∧
      (r.step (.child h)).forest.isCancelled r.forest.nodes.length = r.forest.isCancelled p) ∧
    (∀ p c, (p, c) ∈ kin → r.forest.isCancelled p = true → r.Holds c →
      r.forest.isCancelled c = true) ∧
    ∀ w ∈ r.waiters, w.isDropped = false →
      (w.isCompleted = true ↔ r.forest.isCancelled w.token = true) := by
  intro r kin
  -- the books are right after any operations, and nobody is on the way
  obtain ⟨hr, hrest⟩ : r.Kept kin ∧ ∀ p ∈ r.waiters, p.Resting r.forest := kept_foldl_step ops
  refine ⟨fun op u hu => ?_, fun h t u ht hu => ?_, fun more u hup => ?_, fun h p hp => ?_,
    fun p c hkin hup hheld => ?_, fun w hw hdropped => ?_⟩
  · rw [hr.isCancelled_step hrest]
    exact hr.isCancelled_iff_of_effect (effect_apply r op) hu
  · have happly : (r.apply (.cancel h)).forest = r.forest.cancel t := by
      simp only [Registry.apply, ht]
    rw [hr.isCancelled_step hrest, happly]
    exact hr.toKindred.isCancelled_cancel_eq (hr.isHeld_of_token? ht) hu
  · exact hr.isCancelled_foldl_step hrest more hup
  · exact hr.child_step hrest hp
  · exact hr.toKindred.isCancelled_child_of hkin hup (hr.isHeld_iff_holds.mpr hheld)
  · exact (hrest w hw).isCompleted_iff hdropped

/-- Two branches below a token: the first goes on through a child that only a waiter holds, the second
through one that nothing holds any more. -/
def branches : List Operation :=
  [.create, .child 0, .child 1, .wait 1, .drop 1, .child 0, .child 3, .drop 3]

/-- A cancellation goes all the way down the first branch, and not down the second. The waiter's wait
is over. -/
theorem cancellation_has_exact_reach_branches :
    (branches.foldl Registry.step {}).forest.isCancelled 2 = false ∧
      (branches.foldl Registry.step {}).token? 1 = none ∧
      (branches.foldl Registry.step {}).token? 0 = some 0 ∧
      ((branches ++ [Operation.cancel 0]).foldl Registry.step {}).forest.isCancelled 2 = true ∧
      ((branches ++ [Operation.cancel 0]).foldl Registry.step {}).forest.isCancelled 4 = false ∧
      ∀ w ∈ ((branches ++ [Operation.cancel 0]).foldl Registry.step {}).waiters, w.isCompleted = true := by
  have hroot : (branches.foldl Registry.step {}).token? 0 = some 0 := by rfl
  have hholds : ∀ t, t = 0 ∨ t = 1 ∨ t = 2 → (branches.foldl Registry.step {}).Holds t := by
    rintro t (rfl | rfl | rfl)
    · exact .inl (by decide +kernel)
    · exact .inr ⟨⟨0, 1, [.sleep 0], false⟩, by decide +kernel, rfl, rfl⟩
    · exact .inl (by decide +kernel)
  have hline : Line (kinships {} branches) (branches.foldl Registry.step {}).Holds 0 2 :=
    .child (.child (.self (hholds 0 (by simp))) (by decide +kernel) (hholds 1 (by simp)))
      (by decide +kernel) (hholds 2 (by simp))
  obtain ⟨hstep, -⟩ := cancellation_has_exact_reach branches
  obtain ⟨-, -, -, -, -, hwait⟩ := cancellation_has_exact_reach (branches ++ [Operation.cancel 0])
  rw [List.foldl_append] at hwait ⊢
  refine ⟨by decide +kernel, by rfl, hroot, ?_, by decide +kernel, fun w hw => ?_⟩
  · exact (hstep (.cancel 0) 2 (by decide +kernel)).mpr (.inr ⟨0, 0, rfl, hroot, hline⟩)
  · have hdropped : w.isDropped = false ∧
        ((branches.foldl Registry.step {}).step (.cancel 0)).forest.isCancelled w.token = true := by
      revert w
      decide +kernel
    exact (hwait w hw hdropped.1).mpr hdropped.2

end EdgeInclude.Cancellation
