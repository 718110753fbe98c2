import Mathlib.Logic.Relation
import EdgeInclude.Proofs.Cancellation.Ancestry

/-!
# Lineage

Links come and go: a parent drops those to tokens that nothing holds, and gives all of them away when
it is cancelled. Who was made as a child of whom does not change. Such a list of parents and children
says how far a cancellation reaches without a look at the links.

* **`Line`**: the tokens that a token reaches from parent to child while each of them is held.
* **`Descends`**: the same whoever holds the tokens in between.
* **`Kindred`**: what ties the links of a forest to the list. Every call keeps it.
* **`Kindred.isCancelled_cancel_iff`**: a cancellation reaches the line of its token.
* **`Kindred.isCancelled_cancel_eq`**: ancestors, siblings and strangers are none of its business.
-/

namespace EdgeInclude.Cancellation

/-- The tokens on the way from `t` down to its children and theirs, as long as each is held. -/
inductive Line (kin : List (Token × Token)) (Holds : Token → Prop) (t : Token) : Token → Prop
  | self (hheld : Holds t) : Line kin Holds t t
  | child {p c : Token} (h : Line kin Holds t p) (hkin : (p, c) ∈ kin) (hheld : Holds c) :
      Line kin Holds t c

/-- The second token was made as a child of the first, or of one that descends from it. -/
def Descends (kin : List (Token × Token)) : Token → Token → Prop :=
  Relation.TransGen fun p c => (p, c) ∈ kin

variable {kin : List (Token × Token)} {Holds Holds' : Token → Prop} {p q c t u : Token}

/-- A line is a line still if more is held. -/
theorem Line.congr (h : Line kin Holds t u) (hheld : ∀ c, Holds c → Holds' c) :
    Line kin Holds' t u := by
  induction h with
  | self ht => exact .self (hheld _ ht)
  | child _ hkin hc ih => exact .child ih hkin (hheld _ hc)

/-- Whoever stands in the line of a token is the token itself or descends from it. -/
theorem Line.eq_or_descends (h : Line kin Holds t u) : u = t ∨ Descends kin t u := by
  induction h with
  | self => exact .inl rfl
  | child _ hkin _ ih =>
    rcases ih with rfl | hdesc
    · exact .inr (.single hkin)
    · exact .inr (hdesc.tail hkin)

/-- The newest generation stands at the end of the line. -/
theorem Descends.exists_parent (h : Descends kin t u) :
    ∃ p, (p, u) ∈ kin ∧ (p = t ∨ Descends kin t p) := by
  cases h with
  | single hkin => exact ⟨t, hkin, .inl rfl⟩
  | tail h hkin => exact ⟨_, hkin, .inr h⟩

/-- A list of parents and children among the first tokens: parents are older than their children, and a
child has one parent. -/
structure Pedigree (n : Nat) (kin : List (Token × Token)) : Prop where
  lt_child : ∀ p c, (p, c) ∈ kin → p < c
  child_lt : ∀ p c, (p, c) ∈ kin → c < n
  parent_unique : ∀ p q c, (p, c) ∈ kin → (q, c) ∈ kin → p = q

namespace Pedigree

variable {m n : Nat}

theorem empty (n : Nat) : Pedigree n [] where
  lt_child _ _ h := by cases h
  child_lt _ _ h := by cases h
  parent_unique _ _ _ h := by cases h

theorem mono (h : Pedigree n kin) (hnm : n ≤ m) : Pedigree m kin where
  lt_child := h.lt_child
  child_lt p c hkin := Nat.lt_of_lt_of_le (h.child_lt p c hkin) hnm
  parent_unique := h.parent_unique

/-- A new child is younger than all others. -/
theorem concat (h : Pedigree n kin) (hp : p < n) : Pedigree (n + 1) (kin ++ [(p, n)]) := by
  have hnew {q c : Token} (h : (q, c) ∈ kin ++ [(p, n)]) : (q, c) ∈ kin ∨ q = p ∧ c = n := by
    simpa using h
  refine { lt_child := fun q c hc => ?lt_child, child_lt := fun q c hc => ?child_lt
           parent_unique := fun q q' c hc hc' => ?parent_unique }
  case lt_child =>
    rcases hnew hc with hc | ⟨rfl, rfl⟩
    · exact h.lt_child q c hc
    · exact hp
  case child_lt =>
    rcases hnew hc with hc | ⟨-, rfl⟩
    · exact Nat.lt_succ_of_lt (h.child_lt q c hc)
    · exact Nat.lt_succ_self _
  case parent_unique =>
    rcases hnew hc with hold | ⟨rfl, hn⟩
    · rcases hnew hc' with hold' | ⟨-, hn⟩
      · exact h.parent_unique q q' c hold hold'
      · exact absurd (h.child_lt q c hold) (Nat.not_lt_of_le (Nat.le_of_eq hn.symm))
    · rcases hnew hc' with hold' | ⟨rfl, -⟩
      · exact absurd (h.child_lt q' c hold') (Nat.not_lt_of_le (Nat.le_of_eq hn.symm))
      · rfl

end Pedigree

namespace Forest

variable {f g : Forest}

/-- The forest belongs to a list of parents and children: links lead from parents to children, and a
child that something holds is linked unless its flag is up. -/
structure Kindred (f : Forest) (kin : List (Token × Token)) : Prop
    extends Settled f, Pedigree f.nodes.length kin where
  mem_kin : ∀ p c, c ∈ f.childrenOf p → (p, c) ∈ kin
  linked : ∀ p c, (p, c) ∈ kin → f.isHeld c = true →
    f.isCancelled c = true ∨ c ∈ f.childrenOf p

namespace Kindred

/-- Where there are no tokens, nobody is kin. -/
theorem empty : Kindred {} [] where
  toSettled := settled_empty
  toPedigree := .empty _
  mem_kin _ _ h := by cases h
  linked _ _ h := by cases h

/-! ### Every call keeps it

Making a token, making a child, cancelling and giving back: the first three change the tree, the
second the list as well. -/

/-- A new token is kin to nobody. -/
theorem create (hf : f.Kindred kin) : f.create.2.Kindred kin where
  toSettled := hf.toSettled.create
  toPedigree := hf.toPedigree.mono (by rw [length_nodes_create]; exact Nat.le_succ _)
  mem_kin p c hc := by
    rw [childrenOf_create] at hc
    exact hf.mem_kin p c hc
  linked p c hkin hheld := by
    have hne : c ≠ f.nodes.length := Nat.ne_of_lt (hf.child_lt p c hkin)
    rw [isHeld_eq, holdersOf_create, if_neg hne, ← isHeld_eq] at hheld
    rw [isCancelled_create, childrenOf_create]
    exact hf.linked p c hkin hheld

/-- A child is kin to its parent, and linked to it or cancelled at birth. -/
theorem child (hf : f.Kindred kin) (hp : p < f.nodes.length) :
    (f.child p).2.Kindred (kin ++ [(p, f.nodes.length)]) := by
  have hwf := hf.toWellFormed
  refine
    { toSettled := hf.toSettled.child, toPedigree := ?pedigree
      mem_kin := fun q c h => ?mem_kin, linked := fun q c h hheld => ?linked }
  case pedigree =>
    rw [length_nodes_child hwf]
    exact hf.toPedigree.concat hp
  case mem_kin =>
    rcases mem_childrenOf_child hwf h with h | ⟨rfl, rfl⟩
    · exact List.mem_append_left _ (hf.mem_kin q c h)
    · exact List.mem_append_right _ (List.mem_singleton.mpr rfl)
  case linked =>
    -- a parent and child of before, or the new ones
    have hnew : (q, c) ∈ kin ∨ q = p ∧ c = f.nodes.length := by simpa using h
    rw [isCancelled_child hwf]
    rcases hnew with h | ⟨rfl, rfl⟩
    · have hne : c ≠ f.nodes.length := Nat.ne_of_lt (hf.child_lt q c h)
      rw [isHeld_eq, holdersOf_child hwf, if_neg hne, ← isHeld_eq] at hheld
      rw [if_neg hne]
      rcases hf.linked q c h hheld with hup | hc
      · exact .inl hup
      · exact .inr (mem_childrenOf_child_of_mem hwf hc hheld)
    · rw [if_pos rfl]
      cases hup : f.isCancelled q with
      | true => exact .inl rfl
      | false => exact .inr (mem_childrenOf_child_self hwf hp hup)

/-- What a cancellation unlinks it has cancelled. -/
theorem cancel (hf : f.Kindred kin) (t : Token) : (f.cancel t).Kindred kin where
  toSettled := hf.toSettled.cancel
  toPedigree := hf.toPedigree.mono (Nat.le_of_eq (length_nodes_cancel hf.unlocked).symm)
  mem_kin p c hc := hf.mem_kin p c (mem_childrenOf_of_cancel hf.unlocked hc)
  linked p c hkin hheld := by
    rw [isHeld_cancel hf.unlocked] at hheld
    rcases hf.linked p c hkin hheld with hup | hc
    · exact .inl (isCancelled_cancel_of hf.unlocked hup)
    · by_cases hreaches : Reaches f t p
      · -- the links of the parent are gone, since they were followed
        exact .inl (hf.toSettled.isCancelled_cancel_iff.mpr (.inr (.child hreaches.isAbove hc hheld)))
      · rw [childrenOf_cancel hf.unlocked hreaches]
        exact .inr hc

/-- Kinship is the same in a forest that looks the same, as long as no more tokens are held. -/
theorem of_sameTree (hf : f.Kindred kin) (h : SameTree f g)
    (hheld : ∀ c, g.isHeld c = true → f.isHeld c = true) : g.Kindred kin where
  toSettled := hf.toSettled.of_sameTree h
  toPedigree := hf.toPedigree.mono (Nat.le_of_eq h.length_nodes.symm)
  mem_kin p c hc := by
    rw [h.childrenOf] at hc
    exact hf.mem_kin p c hc
  linked p c hkin hc := by
    rw [h.isCancelled, h.childrenOf]
    exact hf.linked p c hkin (hheld c hc)

/-! ### What it says

Links are a matter of the moment, the list is not. As far as flags are concerned, both say the same
of tokens that are held. -/

/-- **A child that something holds is cancelled if its parent is.** -/
theorem isCancelled_child_of (hf : f.Kindred kin) (hkin : (p, c) ∈ kin)
    (hup : f.isCancelled p = true) (hheld : f.isHeld c = true) : f.isCancelled c = true := by
  rcases hf.linked p c hkin hheld with hc | hc
  · exact hc
  · -- a cancelled parent has no links
    rw [hf.childrenOf_eq_nil p hup] at hc
    cases hc

/-- A whole line is cancelled if the token at its head is. -/
theorem isCancelled_of_line (hf : f.Kindred kin) (h : Line kin (f.isHeld · = true) t u)
    (hup : f.isCancelled t = true) : f.isCancelled u = true := by
  induction h with
  | self => exact hup
  | child _ hkin hheld ih => exact hf.isCancelled_child_of hkin ih hheld

/-- Links lead along the line. -/
theorem line_of_isAbove (hf : f.Kindred kin) (ht : f.isHeld t = true) (h : f.IsAbove t u) :
    Line kin (f.isHeld · = true) t u := by
  induction h with
  | self => exact .self ht
  | child _ hc hheld ih => exact .child ih (hf.mem_kin _ _ hc) hheld

/-- Links lead to descendants alone. -/
theorem eq_or_descends_of_isAbove (hf : f.Kindred kin) (h : f.IsAbove t u) :
    u = t ∨ Descends kin t u := by
  induction h with
  | self => exact .inl rfl
  | child _ hc _ ih =>
    have hkin := hf.mem_kin _ _ hc
    rcases ih with rfl | hdesc
    · exact .inr (.single hkin)
    · exact .inr (hdesc.tail hkin)

theorem lt_length_of_line (h : Line kin (f.isHeld · = true) t u) : u < f.nodes.length := by
  cases h with
  | self hheld | child _ _ hheld => exact lt_length_of_isHeld hheld

/-- Along the line there are links, unless flags are up. -/
theorem isAbove_of_line (hf : f.Kindred kin) (h : Line kin (f.isHeld · = true) t u) :
    f.isCancelled u = true ∨ f.IsAbove t u := by
  induction h with
  | self ht => exact .inr (.self (lt_length_of_isHeld ht))
  | child _ hkin hheld ih =>
    rcases ih with hup | habove
    · exact .inl (hf.isCancelled_child_of hkin hup hheld)
    · rcases hf.linked _ _ hkin hheld with hup | hc
      · exact .inl hup
      · exact .inr (.child habove hc hheld)

/-- **A cancellation reaches the line of its token**, and nothing else. -/
theorem isCancelled_cancel_iff (hf : f.Kindred kin) (ht : f.isHeld t = true) :
    (f.cancel t).isCancelled u = true ↔
      f.isCancelled u = true ∨ Line kin (f.isHeld · = true) t u := by
  rw [hf.toSettled.isCancelled_cancel_iff]
  constructor
  · exact Or.imp_right (hf.line_of_isAbove ht)
  · rintro (hup | hline)
    · exact .inl hup
    · exact hf.isAbove_of_line hline

theorem lt_of_descends (hf : f.Kindred kin) (h : Descends kin t u) : t < u := by
  induction h with
  | single hkin => exact hf.lt_child _ _ hkin
  | tail _ hkin ih => exact Nat.lt_trans ih (hf.lt_child _ _ hkin)

/-- Nobody descends from a sibling. -/
theorem not_descends_of_sibling (hf : f.Kindred kin) (hu : (p, u) ∈ kin) (ht : (p, t) ∈ kin) :
    ¬ Descends kin t u := by
  intro h
  -- its one parent would be the token or descend from it, and is older than the token
  obtain ⟨q, hq, hline⟩ := h.exists_parent
  obtain rfl := hf.parent_unique q p u hq hu
  have hlt := hf.lt_child q t ht
  rcases hline with rfl | hdesc
  · exact Nat.lt_irrefl _ hlt
  · exact Nat.lt_asymm hlt (hf.lt_of_descends hdesc)

/-- **A cancellation is no matter for ancestors, siblings and strangers.** -/
theorem isCancelled_cancel_eq (hf : f.Kindred kin) (ht : f.isHeld t = true)
    (hu : Descends kin u t ∨ (u ≠ t ∧ ∃ p, (p, u) ∈ kin ∧ (p, t) ∈ kin) ∨
      (u ≠ t ∧ ¬ Descends kin t u)) :
    (f.cancel t).isCancelled u = f.isCancelled u := by
  have hstranger : u ≠ t ∧ ¬ Descends kin t u := by
    rcases hu with habove | ⟨hne, p, hp, hp'⟩ | hu
    · have hlt := hf.lt_of_descends habove
      exact ⟨Nat.ne_of_lt hlt, fun h => Nat.lt_asymm hlt (hf.lt_of_descends h)⟩
    · exact ⟨hne, hf.not_descends_of_sibling hp hp'⟩
    · exact hu
  rw [Bool.eq_iff_iff, hf.isCancelled_cancel_iff ht]
  refine or_iff_left fun hline => ?_
  rcases hline.eq_or_descends with rfl | hdesc
  · exact hstranger.1 rfl
  · exact hstranger.2 hdesc

end Kindred

end Forest

end EdgeInclude.Cancellation
