import EdgeInclude.Proofs.Cancellation.Kinship

/-!
# Ancestors

When no call is under way a cancelled token has no links any more. So the links alone say which
tokens a cancellation reaches: all that the token is above. Tokens without links do not count for
that, whether they come, are cancelled or go.

* **`IsAbove`**: a token and its ancestors, along links to tokens that something holds.
* **`Settled`**: a cancelled token has no links. **`settled_foldl_step`**: whatever is done to a
  registry, its forest is settled.
* **`Settled.isCancelled_cancel_iff`**: a cancellation reaches what the token is above.
* **`Follows`**: what has become of the tokens of a forest after some of them were cancelled, whatever
  else has happened to tokens without links.
-/

namespace EdgeInclude.Cancellation

namespace Forest

variable {f g : Forest} {p t u v w c : Token} {outside : List Token}

/-- A token is above itself, and above what links lead to from a token that it is above. What nothing
holds is gone: nothing is above it, nor above anything else by way of it. -/
inductive IsAbove (f : Forest) (v : Token) : Token → Prop
  | self (hv : v < f.nodes.length) : IsAbove f v v
  | child {p c : Token} (h : IsAbove f v p) (hc : c ∈ f.childrenOf p) (hheld : f.isHeld c = true) :
      IsAbove f v c

theorem IsAbove.lt_length (h : f.IsAbove v u) : u < f.nodes.length := by
  cases h with
  | self hv => exact hv
  | child _ _ hheld => exact lt_length_of_isHeld hheld

theorem IsAbove.lt_length_left (h : f.IsAbove v u) : v < f.nodes.length := by
  induction h with
  | self hv => exact hv
  | child _ _ _ ih => exact ih

/-- Ancestors are kept where the links and the tokens are. -/
theorem IsAbove.mono (h : f.IsAbove v u) (hlength : f.nodes.length ≤ g.nodes.length)
    (hlinks : ∀ p c, c ∈ f.childrenOf p → f.isHeld c = true →
      c ∈ g.childrenOf p ∧ g.isHeld c = true) : g.IsAbove v u := by
  induction h with
  | self hv => exact .self (Nat.lt_of_lt_of_le hv hlength)
  | child _ hc hheld ih =>
    obtain ⟨hc', hheld'⟩ := hlinks _ _ hc hheld
    exact .child ih hc' hheld'

theorem Reaches.isAbove (h : Reaches f v u) : f.IsAbove v u := by
  induction h with
  | root hr _ => exact .self hr
  | child _ hc hheld _ ih => exact .child ih hc hheld

/-! ## Forests at rest

In a forest at rest, a token whose flag is up has no links left. Then flags need not be asked for
along the way. -/

/-- No call is under way: a cancelled token has given its links away. -/
structure Settled (f : Forest) : Prop extends WellFormed f where
  childrenOf_eq_nil : ∀ t, f.isCancelled t = true → f.childrenOf t = []

theorem settled_empty : Settled {} where
  toWellFormed := wellFormed_empty
  childrenOf_eq_nil t h := by cases h

/-- Those above a token whose flag is down have their flags down too, since they have links. -/
theorem Settled.reaches (hf : f.Settled) (h : f.IsAbove v u) (hdown : f.isCancelled u = false) :
    Reaches f v u := by
  induction h with
  | self hv => exact .root hv hdown
  | @child p c _ hc hheld ih =>
    have hp : f.isCancelled p = false := by
      rw [← Bool.not_eq_true]
      intro hup
      rw [hf.childrenOf_eq_nil p hup] at hc
      cases hc
    exact .child (ih hp) hc hheld hdown

/-- **A cancellation reaches what the token is above.** -/
theorem Settled.isCancelled_cancel_iff (hf : f.Settled) :
    (f.cancel t).isCancelled u = true ↔ f.isCancelled u = true ∨ f.IsAbove t u := by
  rw [Forest.isCancelled_cancel_iff hf.unlocked]
  constructor
  · rintro (hup | hreaches)
    · exact .inl hup
    · exact .inr hreaches.isAbove
  · rintro (hup | habove)
    · exact .inl hup
    · cases hu : f.isCancelled u with
      | true => exact .inl rfl
      | false => exact .inr (hf.reaches habove hu)

/-- A cancellation takes the links of all that it reaches. -/
theorem Settled.cancel (hf : f.Settled) : (f.cancel t).Settled where
  toWellFormed := hf.toWellFormed.cancel
  childrenOf_eq_nil u hup := by
    by_cases hreaches : Reaches f t u
    · exact childrenOf_cancel_of_reaches hf.unlocked hreaches
    · rw [childrenOf_cancel hf.unlocked hreaches]
      exact hf.childrenOf_eq_nil u
        (((Forest.isCancelled_cancel_iff hf.unlocked).mp hup).resolve_right hreaches)

/-- A new token has no links. -/
theorem Settled.create (hf : f.Settled) : f.create.2.Settled where
  toWellFormed := hf.toWellFormed.create
  childrenOf_eq_nil u hup := by
    rw [isCancelled_create] at hup
    rw [childrenOf_create]
    exact hf.childrenOf_eq_nil u hup

/-- A child of a token that is cancelled is not linked, and one that is not has its flag down. -/
theorem Settled.child (hf : f.Settled) : (f.child p).2.Settled where
  toWellFormed := hf.toWellFormed.child
  childrenOf_eq_nil u hup := by
    cases hp : f.isCancelled p with
    | true =>
      rw [child_of_isCancelled hf.toWellFormed hp] at hup ⊢
      exact hf.create.cancel.childrenOf_eq_nil u hup
    | false =>
      have hup' : f.isCancelled u = true := by
        rw [isCancelled_child hf.toWellFormed] at hup
        split at hup
        · rw [hp] at hup; cases hup
        · exact hup
      have hne : p ≠ u := by
        rintro rfl
        rw [hp] at hup'
        cases hup'
      rw [child_of_not_isCancelled hf.toWellFormed hp, childrenOf, getElem?_nodes_modifyNode,
        if_neg hne]
      exact hf.create.childrenOf_eq_nil u ((isCancelled_create f u).trans hup')

/-- What looks like a forest at rest is one. -/
theorem Settled.of_sameTree (hf : f.Settled) (h : SameTree f g) : g.Settled where
  toWellFormed := hf.toWellFormed.of_sameTree h
  childrenOf_eq_nil t hup := by
    rw [h.isCancelled] at hup
    rw [h.childrenOf]
    exact hf.childrenOf_eq_nil t hup

/-- All calls of handles leave a forest at rest. -/
theorem lasting_settled : Lasting Settled where
  create _ hf := hf.create
  child _ _ hf := hf.child
  cancel _ _ hf := hf.cancel
  sameTree _ _ hf h := hf.of_sameTree h

/-- **Whatever is done to a registry, its forest is settled** when it is done. -/
theorem settled_foldl_step (ops : List Operation) :
    (ops.foldl Registry.step {}).forest.Settled :=
  Registry.foldl_step_of_lasting lasting_settled settled_empty ops

/-! ## Ancestors after a call

No call puts a token above another one, except that a parent and all above it are above a new child.
-/

/-- A cancellation makes no ancestors. -/
theorem IsAbove.of_cancel (hf : f.WellFormed) (h : (f.cancel t).IsAbove v u) : f.IsAbove v u := by
  refine h.mono (Nat.le_of_eq (length_nodes_cancel hf.unlocked)) fun p c hc hheld => ?_
  rw [isHeld_cancel hf.unlocked] at hheld
  exact ⟨mem_childrenOf_of_cancel hf.unlocked hc, hheld⟩

/-- A cancellation takes ancestors only from those that it reaches. -/
theorem Settled.isAbove_cancel (hf : f.Settled) (t : Token) (h : f.IsAbove v u) :
    (f.cancel t).IsAbove v u ∨ (f.cancel t).isCancelled u = true := by
  have hunlocked := hf.unlocked
  induction h with
  | self hv => exact .inl (.self (by rwa [length_nodes_cancel hunlocked]))
  | @child p c _ hc hheld ih =>
    by_cases hreaches : Reaches f t p
    · exact .inr (hf.isCancelled_cancel_iff.mpr (.inr (.child hreaches.isAbove hc hheld)))
    · rcases ih with habove | hup
      · refine .inl (.child habove ?_ ?_)
        · rwa [childrenOf_cancel hunlocked hreaches]
        · rwa [isHeld_cancel hunlocked]
      · -- the parent was not cancelled before, since it has a link, and is not reached
        have hup' := ((Forest.isCancelled_cancel_iff hunlocked).mp hup).resolve_right hreaches
        rw [hf.childrenOf_eq_nil p hup'] at hc
        cases hc

/-- Making a child drops links only to tokens that nothing holds. -/
theorem mem_childrenOf_child_of_mem (hf : f.WellFormed) (hc : c ∈ f.childrenOf u)
    (hheld : f.isHeld c = true) : c ∈ (f.child p).2.childrenOf u := by
  have hlt := hf.lt_length u c hc
  have hu : u ≠ f.nodes.length := by
    rintro rfl
    rw [childrenOf_of_length_le (Nat.le_refl _)] at hc
    cases hc
  cases hp : f.isCancelled p with
  | true =>
    rw [child_of_isCancelled hf hp,
      childrenOf_cancel hf.create.unlocked (mt reaches_create_iff.mp hu), childrenOf_create]
    exact hc
  | false =>
    rw [child_of_not_isCancelled hf hp, childrenOf, getElem?_nodes_modifyNode,
      getElem?_nodes_create, if_neg hu]
    rw [childrenOf] at hc
    -- a new link drops those to tokens that nothing holds, and this one is held
    by_cases hpu : p = u
    · rw [if_pos hpu]
      cases hnode : f.nodes[u]? with
      | none => rw [hnode] at hc; cases hc
      | some node =>
        rw [hnode] at hc
        have hheld' : f.create.2.isHeld c = true := by
          rw [isHeld_eq, holdersOf_create, if_neg (Nat.ne_of_lt hlt), ← isHeld_eq]
          exact hheld
        exact List.mem_append_left _ (List.mem_filter.mpr ⟨hc, hheld'⟩)
    · rw [if_neg hpu]
      exact hc

/-- Who was above another token stays so when a child is made. -/
theorem IsAbove.child_of (hf : f.WellFormed) (h : f.IsAbove v u) : (f.child p).2.IsAbove v u := by
  refine h.mono (by rw [length_nodes_child hf]; exact Nat.le_succ _) fun q c hc hheld => ?_
  refine ⟨mem_childrenOf_child_of_mem hf hc hheld, ?_⟩
  rw [isHeld_eq, holdersOf_child hf, if_neg (Nat.ne_of_lt (hf.lt_length q c hc)), ← isHeld_eq]
  exact hheld

/-! ## What has become of the tokens of a forest

Calls come one after the other, and newer tokens come and go. What matters to the tokens of before
is which of them were cancelled. -/

/-- The tokens of a forest after those in `outside` were cancelled one after the other. Newer tokens
have come and gone in the meantime, but they have no links. -/
structure Follows (f : Forest) (outside : List Token) (g : Forest) : Prop where
  settled : g.Settled
  length_le : f.nodes.length ≤ g.nodes.length
  leaf : ∀ p, f.nodes.length ≤ p → g.childrenOf p = []
  isCancelled_iff : ∀ u < f.nodes.length, g.isCancelled u = true ↔
    f.isCancelled u = true ∨ ∃ v ∈ outside, f.IsAbove v u
  isAbove_of : ∀ v u, u < f.nodes.length → g.IsAbove v u → f.IsAbove v u
  isAbove_or : ∀ v u, f.IsAbove v u → g.IsAbove v u ∨ g.isCancelled u = true

namespace Follows

/-- At first nothing has become of them. -/
theorem refl (hf : f.Settled) : Follows f [] f where
  settled := hf
  length_le := Nat.le_refl _
  leaf _ hp := childrenOf_of_length_le hp
  isCancelled_iff _ _ := by simp
  isAbove_of _ _ _ h := h
  isAbove_or _ _ h := .inl h

/-- One more of them is cancelled, and all that it is above. -/
theorem cancel (h : Follows f outside g) (v : Token) : Follows f (outside ++ [v]) (g.cancel v) where
  settled := h.settled.cancel
  length_le := by
    rw [length_nodes_cancel h.settled.unlocked]
    exact h.length_le
  leaf p hp := by
    by_cases hreaches : Reaches g v p
    · exact childrenOf_cancel_of_reaches h.settled.unlocked hreaches
    · rw [childrenOf_cancel h.settled.unlocked hreaches]
      exact h.leaf p hp
  isCancelled_iff u hu := by
    rw [h.settled.isCancelled_cancel_iff, h.isCancelled_iff u hu]
    -- what cancelling raises now is what it would have raised at first, or is raised already
    constructor
    · rintro ((hup | ⟨w, hw, habove⟩) | habove)
      · exact .inl hup
      · exact .inr ⟨w, List.mem_append_left _ hw, habove⟩
      · exact .inr ⟨v, List.mem_append_right _ (List.mem_singleton.mpr rfl), h.isAbove_of v u hu habove⟩
    · rintro (hup | ⟨w, hw, habove⟩)
      · exact .inl (.inl hup)
      · rcases List.mem_append.mp hw with hw | hw
        · exact .inl (.inr ⟨w, hw, habove⟩)
        · obtain rfl := List.mem_singleton.mp hw
          rcases h.isAbove_or w u habove with habove | hup
          · exact .inr habove
          · exact .inl ((h.isCancelled_iff u hu).mp hup)
  isAbove_of w u hu habove := h.isAbove_of w u hu (habove.of_cancel h.settled.toWellFormed)
  isAbove_or w u habove := by
    rcases h.isAbove_or w u habove with habove | hup
    · exact h.settled.isAbove_cancel v habove
    · exact .inr (isCancelled_cancel_of h.settled.unlocked hup)

/-- Cancelling a newer token is no matter for the others. -/
theorem of_concat (h : Follows f (outside ++ [w]) g) (hw : f.nodes.length ≤ w) :
    Follows f outside g where
  settled := h.settled
  length_le := h.length_le
  leaf := h.leaf
  isCancelled_iff u hu := by
    rw [h.isCancelled_iff u hu]
    refine or_congr_right ⟨fun ⟨v, hv, habove⟩ => ?_, fun ⟨v, hv, habove⟩ =>
      ⟨v, List.mem_append_left _ hv, habove⟩⟩
    rcases List.mem_append.mp hv with hv | hv
    · exact ⟨v, hv, habove⟩
    · obtain rfl := List.mem_singleton.mp hv
      exact absurd habove.lt_length_left (Nat.not_lt.mpr hw)
  isAbove_of := h.isAbove_of
  isAbove_or := h.isAbove_or

/-- Only old tokens are above others. -/
theorem lt_length_of_mem (h : Follows f outside g) (hc : c ∈ g.childrenOf p) :
    p < f.nodes.length := by
  by_contra hp
  rw [h.leaf p (Nat.not_lt.mp hp)] at hc
  cases hc

/-- A new child of one of them is nothing to them. -/
theorem child (h : Follows f outside g) (hp : p < f.nodes.length) :
    Follows f outside (g.child p).2 where
  settled := h.settled.child
  length_le := by
    rw [length_nodes_child h.settled.toWellFormed]
    exact Nat.le_succ_of_le h.length_le
  leaf q hq := by
    refine List.eq_nil_iff_forall_not_mem.mpr fun c hc => ?_
    rcases mem_childrenOf_child h.settled.toWellFormed hc with hc | ⟨-, rfl⟩
    · exact absurd (h.lt_length_of_mem hc) (Nat.not_lt.mpr hq)
    · exact absurd hp (Nat.not_lt.mpr hq)
  isCancelled_iff u hu := by
    rw [isCancelled_child h.settled.toWellFormed,
      if_neg (Nat.ne_of_lt (Nat.lt_of_lt_of_le hu h.length_le))]
    exact h.isCancelled_iff u hu
  isAbove_of v u hu habove := by
    have hf := h.settled.toWellFormed
    refine h.isAbove_of v u hu ?_
    -- on the way to an old token there are old tokens only
    induction habove with
    | self => exact .self (Nat.lt_of_lt_of_le hu h.length_le)
    | @child q c _ hc hheld ih =>
      have hne : c ≠ g.nodes.length := Nat.ne_of_lt (Nat.lt_of_lt_of_le hu h.length_le)
      have hc' : c ∈ g.childrenOf q :=
        (mem_childrenOf_child hf hc).resolve_right fun hnew => hne hnew.1
      have hheld' : g.isHeld c = true := by
        rw [isHeld_eq, holdersOf_child hf, if_neg hne, ← isHeld_eq] at hheld
        exact hheld
      exact .child (ih (h.lt_length_of_mem hc')) hc' hheld'
  isAbove_or v u habove := by
    rcases h.isAbove_or v u habove with habove | hup
    · exact .inl (habove.child_of h.settled.toWellFormed)
    · refine .inr ?_
      have hu := lt_length_of_isCancelled hup
      rw [isCancelled_child h.settled.toWellFormed, if_neg (Nat.ne_of_lt hu)]
      exact hup

/-- A newer token may go. -/
theorem release (h : Follows f outside g) (hw : f.nodes.length ≤ w) :
    Follows f outside (g.release w) := by
  have hsame := sameTree_release g w
  have hheld (c : Token) (hc : c ≠ w) : (g.release w).isHeld c = g.isHeld c := by
    rw [isHeld_eq, isHeld_eq, holdersOf_release, if_neg hc, Nat.sub_zero]
  refine
    { settled := h.settled.of_sameTree hsame
      length_le := by rw [hsame.length_nodes]; exact h.length_le
      leaf := fun p hp => by rw [hsame.childrenOf]; exact h.leaf p hp
      isCancelled_iff := fun u hu => by rw [hsame.isCancelled]; exact h.isCancelled_iff u hu
      isAbove_of := fun v u hu habove => h.isAbove_of v u hu ?_
      isAbove_or := fun v u habove => ?_ }
  · refine habove.mono (Nat.le_of_eq hsame.length_nodes) fun p c hc hc' => ?_
    rw [hsame.childrenOf] at hc
    refine ⟨hc, ?_⟩
    -- what is held after it was released was held before
    rw [isHeld_eq, holdersOf_release] at hc'
    rw [isHeld_eq]
    simp only [decide_eq_true_eq] at hc' ⊢
    omega
  · rw [hsame.isCancelled]
    rcases h.isAbove_or v u habove with hg | hup
    · refine .inl ?_
      have hu := habove.lt_length
      clear habove
      induction hg with
      | self hv => exact .self (by rwa [hsame.length_nodes])
      | @child p c _ hc hc' ih =>
        refine .child (ih (h.lt_length_of_mem hc)) (by rwa [hsame.childrenOf]) ?_
        rw [hheld c (Nat.ne_of_lt (Nat.lt_of_lt_of_le hu hw))]
        exact hc'
    · exact .inr hup

/-- The forest itself, with the tokens cancelled one after the other. -/
theorem foldl_cancel (hf : f.Settled) (outside : List Token) :
    Follows f outside (outside.foldl Forest.cancel f) := by
  induction outside using List.reverseRecOn with
  | nil => exact .refl hf
  | append_singleton outside v ih =>
    rw [List.foldl_append]
    exact ih.cancel v

/-- **What happened to tokens without links does not show** in the flags of the others. -/
theorem isCancelled_eq {g' : Forest} (h : Follows f outside g) (h' : Follows f outside g')
    (hu : u < f.nodes.length) : g.isCancelled u = g'.isCancelled u := by
  rw [Bool.eq_iff_iff, h.isCancelled_iff u hu, h'.isCancelled_iff u hu]

end Follows

end Forest

end EdgeInclude.Cancellation
