import Mathlib.Data.List.Induction
import EdgeInclude.Proofs.Cancellation.Calls

/-!
# How far a cancellation reaches

`Reaches f r` are the tokens that cancelling `r` raises: `r` itself, if its flag is down, and from a
token that is raised on to the children that something holds and whose flag is down. The call walks
along the links with a list of things to do; `Spreading` says how far it has come at any moment.

* **`isCancelled_cancel_iff`**: after the call those flags are up that were up before, and those of
  the tokens that are reached.
* **`childrenOf_cancel_of_reaches`**, **`childrenOf_cancel`**: the links of the tokens that are
  reached are gone, all others are there.
* **`getElem?_waiters_cancel`**: who listens at a token that is reached is notified.
-/

namespace EdgeInclude.Cancellation

/-- A waiter whom a notification reaches if it listens. -/
def Waiter.wake (w : Waiter) : Waiter :=
  if w.isListening then { w with isNotified := true } else w

namespace Forest

variable {f g : Forest} {r t u c : Token} {call : List Action} {change : Node → Node}

/-! ## Views of a forest

What is asked of a token is read off its node. Each view has its own lemma for each change, so that
nodes are taken apart here and nowhere else. -/

/-- The weak links of a token, oldest first. -/
def childrenOf (f : Forest) (t : Token) : List Token :=
  match f.nodes[t]? with
  | some node => node.children
  | none => []

/-- How many hold a token. -/
def holdersOf (f : Forest) (t : Token) : Nat :=
  match f.nodes[t]? with
  | some node => node.holders
  | none => 0

theorem isHeld_eq (f : Forest) (t : Token) : f.isHeld t = decide (0 < f.holdersOf t) := by
  rw [isHeld, holdersOf]
  cases f.nodes[t]? <;> rfl

theorem lt_length_of_isHeld (h : f.isHeld t = true) : t < f.nodes.length := by
  by_contra hge
  simp [isHeld, List.getElem?_eq_none (Nat.not_lt.mp hge)] at h

theorem lt_length_of_isCancelled (h : f.isCancelled t = true) : t < f.nodes.length := by
  by_contra hge
  simp [isCancelled, List.getElem?_eq_none (Nat.not_lt.mp hge)] at h

/-- A change of one node is seen at its place alone. -/
theorem getElem?_nodes_modifyNode (f : Forest) (t u : Token) (change : Node → Node) :
    (f.modifyNode t change).nodes[u]? = if t = u then f.nodes[u]?.map change else f.nodes[u]? := by
  rw [modifyNode, List.getElem?_modify]
  split
  · rfl
  · exact id_map _

/-- A change to a token leaves the node of a token alone, or it is made to it. -/
theorem getElem?_modifyNode_cases (f : Forest) (t u : Token) (change : Node → Node) :
    (f.modifyNode t change).nodes[u]? = f.nodes[u]? ∨
      ∃ node, f.nodes[u]? = some node ∧ (f.modifyNode t change).nodes[u]? = some (change node) := by
  rw [getElem?_nodes_modifyNode]
  split
  · cases hn : f.nodes[u]? with
    | none => exact .inl rfl
    | some node => exact .inr ⟨node, rfl, rfl⟩
  · exact .inl rfl

@[simp]
theorem length_nodes_modifyNode (f : Forest) (t : Token) (change : Node → Node) :
    (f.modifyNode t change).nodes.length = f.nodes.length :=
  List.length_modify ..

/-- Flags stay as they are in a change that leaves them alone. -/
theorem isCancelled_modifyNode (h : ∀ node, (change node).isCancelled = node.isCancelled) :
    (f.modifyNode t change).isCancelled u = f.isCancelled u := by
  rw [isCancelled, isCancelled]
  rcases getElem?_modifyNode_cases f t u change with hsame | ⟨node, hn, hchange⟩
  · rw [hsame]
  · rw [hn, hchange]
    exact h node

/-- Locks stay as they are in a change that leaves them alone. -/
theorem isLocked_modifyNode (h : ∀ node, (change node).isLocked = node.isLocked) :
    (f.modifyNode t change).isLocked u = f.isLocked u := by
  rw [isLocked, isLocked]
  rcases getElem?_modifyNode_cases f t u change with hsame | ⟨node, hn, hchange⟩
  · rw [hsame]
  · rw [hn, hchange]
    exact h node

/-- Links stay as they are in a change that leaves them alone. -/
theorem childrenOf_modifyNode (h : ∀ node, (change node).children = node.children) :
    (f.modifyNode t change).childrenOf u = f.childrenOf u := by
  rw [childrenOf, childrenOf]
  rcases getElem?_modifyNode_cases f t u change with hsame | ⟨node, hn, hchange⟩
  · rw [hsame]
  · rw [hn, hchange]
    exact h node

/-- Holders stay as they are in a change that leaves them alone. -/
theorem holdersOf_modifyNode (h : ∀ node, (change node).holders = node.holders) :
    (f.modifyNode t change).holdersOf u = f.holdersOf u := by
  rw [holdersOf, holdersOf]
  rcases getElem?_modifyNode_cases f t u change with hsame | ⟨node, hn, hchange⟩
  · rw [hsame]
  · rw [hn, hchange]
    exact h node

/-- Raising a flag raises that one, if its token is there. -/
theorem isCancelled_raise_iff :
    (f.modifyNode t fun node => { node with isCancelled := true }).isCancelled u = true ↔
      f.isCancelled u = true ∨ u = t ∧ t < f.nodes.length := by
  rw [isCancelled, isCancelled, getElem?_nodes_modifyNode]
  by_cases htu : t = u
  · subst htu
    by_cases ht : t < f.nodes.length
    · simp [ht]
    · simp [ht]
  · rw [if_neg htu]
    simp [Ne.symm htu]

/-- Taking the links of a token leaves those of the others. -/
theorem childrenOf_takeChildren :
    (f.modifyNode t fun node => { node with children := [] }).childrenOf u =
      if u = t then [] else f.childrenOf u := by
  rw [childrenOf, childrenOf, getElem?_nodes_modifyNode]
  by_cases htu : t = u
  · subst htu
    cases f.nodes[t]? <;> simp
  · rw [if_neg htu, if_neg (Ne.symm htu)]

/-- One more holder is one more for that token. -/
theorem holdersOf_retain (ht : t < f.nodes.length) :
    (f.retain t).holdersOf u = f.holdersOf u + if u = t then 1 else 0 := by
  rw [retain, holdersOf, holdersOf, getElem?_nodes_modifyNode]
  by_cases htu : t = u
  · subst htu
    simp [ht]
  · rw [if_neg htu, if_neg (Ne.symm htu), Nat.add_zero]

/-- One fewer is one fewer for that token. -/
theorem holdersOf_release :
    (f.release t).holdersOf u = f.holdersOf u - if u = t then 1 else 0 := by
  rw [release, holdersOf, holdersOf, getElem?_nodes_modifyNode]
  by_cases htu : t = u
  · subst htu
    cases f.nodes[t]? <;> simp
  · rw [if_neg htu, if_neg (Ne.symm htu), Nat.sub_zero]

/-! ## What is reached

From a token whose flag is down, links lead on through tokens that are held and whose flags are
down. This is fixed before the call begins, and the call gets to all of it and no further. -/

/-- The tokens whose flags a cancellation of `r` raises. -/
inductive Reaches (f : Forest) (r : Token) : Token → Prop where
  /-- The token itself, if its flag is down. -/
  | root (hr : r < f.nodes.length) (hdown : f.isCancelled r = false) : Reaches f r r
  /-- A child of a token that is reached, if something holds it and its flag is down. -/
  | child {t c : Token} (h : Reaches f r t) (hc : c ∈ f.childrenOf t) (hheld : f.isHeld c = true)
      (hdown : f.isCancelled c = false) : Reaches f r c

theorem Reaches.isCancelled_eq_false (h : Reaches f r t) : f.isCancelled t = false := by
  cases h with
  | root _ hdown => exact hdown
  | child _ _ _ hdown => exact hdown

theorem Reaches.lt_length (h : Reaches f r t) : t < f.nodes.length := by
  cases h with
  | root hr _ => exact hr
  | child _ _ hheld _ => exact lt_length_of_isHeld hheld

/-! ## How far a call has come

In the midst of a call some flags are raised already, some links are taken, and some of the reached
tokens are still on the agenda. Every reached token is accounted for in one of these ways. -/

/-- What a call that cancels `r` can have to do, when it began in the forest `f` and is now in the
forest `g`. -/
def Spreads (f : Forest) (r : Token) (g : Forest) : Action → Prop
  | .raise t => t = r ∨ ∃ p, Reaches f r p ∧ t ∈ f.childrenOf p ∧ f.isHeld t = true
  | .notify t | .takeChildren t => Reaches f r t ∧ g.isCancelled t = true
  | .follow t => ∃ p, Reaches f r p ∧ t ∈ f.childrenOf p
  | .release t => f.isHeld t = true
  | _ => False

/-- What there is to do stays so while flags go up. -/
theorem Spreads.mono {g' : Forest} {action : Action} (h : Spreads f r g action)
    (hup : ∀ t, g.isCancelled t = true → g'.isCancelled t = true) : Spreads f r g' action := by
  cases action with
  | notify t => exact ⟨h.1, hup t h.2⟩
  | takeChildren t => exact ⟨h.1, hup t h.2⟩
  | _ => exact h

/-- A call that cancels `r` began in the forest `f` and is now in the forest `g`, with actions left
to carry out. -/
structure Spreading (f : Forest) (r : Token) (g : Forest) (call : List Action) : Prop where
  spreads : ∀ action ∈ call, Spreads f r g action
  length_nodes : g.nodes.length = f.nodes.length
  isLocked_eq : ∀ t, g.isLocked t = f.isLocked t
  /-- Every token that the call holds for a while has still to be released. -/
  holdersOf_eq : ∀ t, g.holdersOf t = f.holdersOf t + call.count (.release t)
  isCancelled_of : ∀ t, f.isCancelled t = true → g.isCancelled t = true
  reaches_of : ∀ t, g.isCancelled t = true → f.isCancelled t = false → Reaches f r t
  root : .raise r ∈ call ∨ g.isCancelled r = true ∨ f.nodes.length ≤ r
  /-- The links of a raised token have still to be taken, or they are followed. -/
  links : ∀ t, g.isCancelled t = true → f.isCancelled t = false →
    (.takeChildren t ∈ call ∧ g.childrenOf t = f.childrenOf t) ∨
      (g.childrenOf t = [] ∧ ∀ c ∈ f.childrenOf t, f.isHeld c = true →
        g.isCancelled c = true ∨ .follow c ∈ call ∨ .raise c ∈ call)
  links_eq : ∀ t, (g.isCancelled t = true → f.isCancelled t = true) →
    g.childrenOf t = f.childrenOf t
  length_waiters : g.waiters.length = f.waiters.length
  /-- The waiters of a raised token have still to be notified, or they are. -/
  wake : ∀ (i : WaiterId) (w : Waiter), f.waiters[i]? = some w →
    g.isCancelled w.token = true → f.isCancelled w.token = false →
      (.notify w.token ∈ call ∧ g.waiters[i]? = some w) ∨ g.waiters[i]? = some w.wake
  wake_eq : ∀ (i : WaiterId) (w : Waiter), f.waiters[i]? = some w →
    (g.isCancelled w.token = true → f.isCancelled w.token = true) → g.waiters[i]? = some w

namespace Spreading

/-- A call holds nothing that nothing held when it began. -/
theorem isHeld_eq (h : Spreading f r g call) (t : Token) : g.isHeld t = f.isHeld t := by
  rw [Forest.isHeld_eq, Forest.isHeld_eq, h.holdersOf_eq]
  -- what the call holds for a while it found held
  by_cases hmem : Action.release t ∈ call
  · have hheld : f.isHeld t = true := h.spreads _ hmem
    rw [Forest.isHeld_eq, decide_eq_true_eq] at hheld
    rw [decide_eq_true hheld, decide_eq_true (Nat.lt_add_right _ hheld)]
  · rw [List.count_eq_zero_of_not_mem hmem, Nat.add_zero]

/-- At first all of it is still to come, and the token itself is on the agenda. -/
theorem begin (f : Forest) (r : Token) : Spreading f r f (cancelCall r) where
  spreads action hmem := by
    obtain rfl := List.mem_singleton.mp hmem
    exact .inl rfl
  length_nodes := rfl
  isLocked_eq _ := rfl
  holdersOf_eq _ := rfl
  isCancelled_of _ h := h
  reaches_of t h hdown := by
    rw [h] at hdown
    cases hdown
  root := .inl List.mem_cons_self
  links t h hdown := by
    rw [h] at hdown
    cases hdown
  links_eq _ _ := rfl
  length_waiters := rfl
  wake _ w _ h hdown := by
    rw [h] at hdown
    cases hdown
  wake_eq _ _ hw _ := hw

/-- Raising a flag that is up does nothing. -/
theorem raise_of_isCancelled (h : Spreading f r g (.raise t :: call))
    (hup : g.isCancelled t = true ∨ g.nodes.length ≤ t) : Spreading f r g call where
  spreads action hmem := h.spreads action (List.mem_cons_of_mem _ hmem)
  length_nodes := h.length_nodes
  isLocked_eq := h.isLocked_eq
  holdersOf_eq u := by simpa using h.holdersOf_eq u
  isCancelled_of := h.isCancelled_of
  reaches_of := h.reaches_of
  -- the token of the call is cancelled already, or there is none
  root := by
    rcases h.root with hmem | hroot
    · rcases List.mem_cons.mp hmem with heq | hmem
      · cases heq
        rcases hup with hup | hge
        · exact .inr (.inl hup)
        · exact .inr (.inr (h.length_nodes ▸ hge))
      · exact .inl hmem
    · exact .inr hroot
  links u hu hdown := by
    rcases h.links u hu hdown with ⟨hmem, hlinks⟩ | ⟨hlinks, hall⟩
    · exact .inl ⟨by simpa using hmem, hlinks⟩
    · refine .inr ⟨hlinks, fun c hc hheld => ?_⟩
      rcases hall c hc hheld with hc' | hmem | hmem
      · exact .inl hc'
      · exact .inr (.inl (by simpa using hmem))
      · rcases List.mem_cons.mp hmem with heq | hmem
        · cases heq
          rcases hup with hup | hge
          · exact .inl hup
          · rw [h.length_nodes] at hge
            exact absurd (lt_length_of_isHeld hheld) (Nat.not_lt.mpr hge)
        · exact .inr (.inr hmem)
  links_eq := h.links_eq
  length_waiters := h.length_waiters
  wake i w hw hu hdown := by
    rcases h.wake i w hw hu hdown with ⟨hmem, hwaiter⟩ | hwaiter
    · exact .inl ⟨by simpa using hmem, hwaiter⟩
    · exact .inr hwaiter
  wake_eq := h.wake_eq

/-- Raising a flag that is down: the waiters have to be notified and the links to be taken. -/
theorem raise (h : Spreading f r g (.raise t :: call)) (ht : t < g.nodes.length)
    (hdown : g.isCancelled t = false) :
    Spreading f r (g.modifyNode t fun node => { node with isCancelled := true })
      (.notify t :: .takeChildren t :: call) := by
  have hraise (u : Token) := isCancelled_raise_iff (f := g) (t := t) (u := u)
  have hlinks (u : Token) :
      (g.modifyNode t fun node => { node with isCancelled := true }).childrenOf u =
        g.childrenOf u := childrenOf_modifyNode fun _ => rfl
  have hdown' : f.isCancelled t = false := by
    cases hc : f.isCancelled t with
    | false => rfl
    | true => rw [h.isCancelled_of t hc] at hdown; cases hdown
  -- it is the token that the call is for, or a child of one that was reached
  have hreaches : Reaches f r t := by
    rcases h.spreads _ List.mem_cons_self with rfl | ⟨p, hp, hc, hheld⟩
    · exact .root (h.length_nodes ▸ ht) hdown'
    · exact .child hp hc hheld hdown'
  refine
    { spreads := ?spreads, length_nodes := ?length_nodes, isLocked_eq := fun u => ?isLocked_eq
      holdersOf_eq := fun u => ?holdersOf_eq, isCancelled_of := fun u hu => ?isCancelled_of
      reaches_of := fun u hu hf => ?reaches_of, root := ?root, links := fun u hu hf => ?links
      links_eq := fun u hu => ?links_eq, length_waiters := h.length_waiters
      wake := fun i w hw hu hf => ?wake, wake_eq := fun i w hw hu => ?wake_eq }
  case spreads =>
    intro action hmem
    have hup : (g.modifyNode t fun node => { node with isCancelled := true }).isCancelled t =
        true := (hraise t).mpr (.inr ⟨rfl, ht⟩)
    rcases List.mem_cons.mp hmem with rfl | hmem
    · exact ⟨hreaches, hup⟩
    rcases List.mem_cons.mp hmem with rfl | hmem
    · exact ⟨hreaches, hup⟩
    · have hspreads := h.spreads action (List.mem_cons_of_mem _ hmem)
      exact hspreads.mono fun u hu => (hraise u).mpr (.inl hu)
  case length_nodes => rw [length_nodes_modifyNode, h.length_nodes]
  case isLocked_eq => exact Eq.trans (isLocked_modifyNode fun _ => rfl) (h.isLocked_eq u)
  case holdersOf_eq =>
    refine Eq.trans (holdersOf_modifyNode fun _ => rfl) ?_
    rw [h.holdersOf_eq]
    simp
  case isCancelled_of => exact (hraise u).mpr (.inl (h.isCancelled_of u hu))
  case reaches_of =>
    rcases (hraise u).mp hu with hu | ⟨rfl, -⟩
    · exact h.reaches_of u hu hf
    · exact hreaches
  case root =>
    rcases h.root with hmem | hup | hge
    · rcases List.mem_cons.mp hmem with heq | hmem
      · cases heq
        exact .inr (.inl ((hraise _).mpr (.inr ⟨rfl, ht⟩)))
      · exact .inl (by simp [hmem])
    · exact .inr (.inl ((hraise _).mpr (.inl hup)))
    · exact .inr (.inr hge)
  -- a link is dealt with when its token is cancelled, or will be followed, or will be raised
  case links =>
    rw [hlinks]
    rcases (hraise u).mp hu with hu | ⟨rfl, -⟩
    · rcases h.links u hu hf with ⟨hmem, hsame⟩ | ⟨hnil, hall⟩
      · have hmem := List.mem_of_ne_of_mem (by simp) hmem
        exact .inl ⟨by simp [hmem], hsame⟩
      · refine .inr ⟨hnil, fun c hc hheld => ?_⟩
        rcases hall c hc hheld with hc' | hmem | hmem
        · exact .inl ((hraise c).mpr (.inl hc'))
        · exact .inr (.inl (by simpa using hmem))
        · rcases List.mem_cons.mp hmem with heq | hmem
          · cases heq
            exact .inl ((hraise _).mpr (.inr ⟨rfl, ht⟩))
          · exact .inr (.inr (by simp [hmem]))
    · -- the token itself: its links are as they were
      refine .inl ⟨by simp, h.links_eq u fun hu => ?_⟩
      rw [hu] at hdown
      cases hdown
  case links_eq =>
    rw [hlinks]
    exact h.links_eq u fun hu' => hu ((hraise u).mpr (.inl hu'))
  -- who waits for the token is to be notified; for the others nothing has changed
  case wake =>
    rcases (hraise _).mp hu with hu | ⟨heq, -⟩
    · rcases h.wake i w hw hu hf with ⟨hmem, hwaiter⟩ | hwaiter
      · have hmem := List.mem_of_ne_of_mem (by simp) hmem
        exact .inl ⟨by simp [hmem], hwaiter⟩
      · exact .inr hwaiter
    · refine .inl ⟨by simp [heq], h.wake_eq i w hw fun hu => ?_⟩
      rw [heq, hdown] at hu
      cases hu
  case wake_eq => exact h.wake_eq i w hw fun hu' => hu ((hraise _).mpr (.inl hu'))

/-- A notification reaches those who listen at the token. -/
theorem notify (h : Spreading f r g (.notify t :: call)) :
    Spreading f r { g with waiters := g.waiters.map fun w =>
      if w.token = t ∧ w.isListening then { w with isNotified := true } else w } call := by
  obtain ⟨hreaches, hup⟩ := h.spreads _ List.mem_cons_self
  have hdown := hreaches.isCancelled_eq_false
  refine
    { spreads := fun action hmem => h.spreads action (List.mem_cons_of_mem _ hmem)
      length_nodes := h.length_nodes, isLocked_eq := h.isLocked_eq
      holdersOf_eq := fun u => ?holdersOf_eq, isCancelled_of := h.isCancelled_of
      reaches_of := h.reaches_of, root := ?root, links := fun u hu hf => ?links
      links_eq := h.links_eq, length_waiters := ?length_waiters, wake := fun i w hw hu hf => ?wake
      wake_eq := fun i w hw hu => ?wake_eq }
  case holdersOf_eq =>
    have := h.holdersOf_eq u
    rwa [List.count_cons_of_ne (by simp)] at this
  case root =>
    rcases h.root with hmem | hroot
    · exact .inl (List.mem_of_ne_of_mem (by simp) hmem)
    · exact .inr hroot
  case links =>
    rcases h.links u hu hf with ⟨hmem, hsame⟩ | ⟨hnil, hall⟩
    · exact .inl ⟨List.mem_of_ne_of_mem (by simp) hmem, hsame⟩
    · exact .inr ⟨hnil, fun c hc hheld => (hall c hc hheld).imp_right <| Or.imp
        (List.mem_of_ne_of_mem (by simp)) (List.mem_of_ne_of_mem (by simp))⟩
  case length_waiters => rw [List.length_map, h.length_waiters]
  case wake =>
    rw [List.getElem?_map]
    rcases h.wake i w hw hu hf with ⟨hmem, hwaiter⟩ | hwaiter
    · rw [hwaiter]
      by_cases ht : w.token = t
      · refine .inr ?_
        simp [Waiter.wake, ht]
      · refine .inl ⟨List.mem_of_ne_of_mem (by simpa using ht) hmem, ?_⟩
        simp [ht]
    · refine .inr ?_
      rw [hwaiter]
      by_cases hlistening : w.isListening = true <;> simp [Waiter.wake, hlistening]
  case wake_eq =>
    -- the token was raised by this call, so those who wait for another one are left alone
    have ht : w.token ≠ t := by
      rintro rfl
      rw [hu hup] at hdown
      cases hdown
    rw [List.getElem?_map, h.wake_eq i w hw hu]
    simp [ht]

/-- The links that are taken have to be followed. -/
theorem takeChildren (h : Spreading f r g (.takeChildren t :: call)) :
    Spreading f r (g.modifyNode t fun node => { node with children := [] })
      ((g.childrenOf t).map .follow ++ call) := by
  obtain ⟨hreaches, hup⟩ := h.spreads _ List.mem_cons_self
  -- the flag was down at first, so the invariant speaks of these links
  have hdown := hreaches.isCancelled_eq_false
  have hsame (u : Token) :
      (g.modifyNode t fun node => { node with children := [] }).isCancelled u = g.isCancelled u :=
    isCancelled_modifyNode fun _ => rfl
  have hlinks (u : Token) := childrenOf_takeChildren (f := g) (t := t) (u := u)
  refine
    { spreads := fun action hmem => ?spreads, length_nodes := ?length_nodes
      isLocked_eq := fun u => ?isLocked_eq, holdersOf_eq := fun u => ?holdersOf_eq
      isCancelled_of := fun u hu => ?isCancelled_of, reaches_of := fun u hu hf => ?reaches_of
      root := ?root, links := fun u hu hf => ?links, links_eq := fun u hu => ?links_eq
      length_waiters := h.length_waiters, wake := fun i w hw hu hf => ?wake
      wake_eq := fun i w hw hu => ?wake_eq }
  case spreads =>
    rcases List.mem_append.mp hmem with hmem | hmem
    · obtain ⟨c, hc, rfl⟩ := List.mem_map.mp hmem
      rcases h.links t hup hdown with ⟨-, hchildren⟩ | ⟨hnil, -⟩
      · exact ⟨t, hreaches, hchildren ▸ hc⟩
      · rw [hnil] at hc
        cases hc
    · exact (h.spreads action (List.mem_cons_of_mem _ hmem)).mono fun u hu => (hsame u).trans hu
  case length_nodes => rw [length_nodes_modifyNode, h.length_nodes]
  case isLocked_eq => exact Eq.trans (isLocked_modifyNode fun _ => rfl) (h.isLocked_eq u)
  -- following a link holds nothing yet
  case holdersOf_eq =>
    refine Eq.trans (holdersOf_modifyNode fun _ => rfl) ?_
    have hfollow : ((g.childrenOf t).map Action.follow).count (.release u) = 0 :=
      List.count_eq_zero_of_not_mem (by simp)
    rw [h.holdersOf_eq, List.count_append, hfollow, Nat.zero_add, List.count_cons_of_ne (by simp)]
  case isCancelled_of => exact (hsame u).trans (h.isCancelled_of u hu)
  case reaches_of => exact h.reaches_of u ((hsame u).symm.trans hu) hf
  case root =>
    rw [hsame]
    rcases h.root with hmem | hroot
    · exact .inl (List.mem_append_right _ (List.mem_of_ne_of_mem (by simp) hmem))
    · exact .inr hroot
  case links =>
    rw [hlinks]
    rcases h.links u ((hsame u).symm.trans hu) hf with ⟨hmem, hchildren⟩ | ⟨hnil, hall⟩
    · by_cases hut : u = t
      · -- the links that are taken are the links to follow
        subst hut
        refine .inr ⟨if_pos rfl, fun c hc _ => .inr (.inl ?_)⟩
        rw [hchildren]
        exact List.mem_append_left _ (List.mem_map_of_mem hc)
      · rw [if_neg hut]
        exact .inl ⟨List.mem_append_right _ (List.mem_of_ne_of_mem (by simpa using hut) hmem),
          hchildren⟩
    · refine .inr ⟨by split <;> simp [hnil], fun c hc hheld => ?_⟩
      rw [hsame]
      rcases hall c hc hheld with hc' | hmem | hmem
      · exact .inl hc'
      · exact .inr (.inl (List.mem_append_right _ (List.mem_of_ne_of_mem (by simp) hmem)))
      · exact .inr (.inr (List.mem_append_right _ (List.mem_of_ne_of_mem (by simp) hmem)))
  -- the token is cancelled by now, so nothing is claimed of its links
  case links_eq =>
    have hut : u ≠ t := by
      rintro rfl
      rw [hu ((hsame u).trans hup)] at hdown
      cases hdown
    rw [hlinks, if_neg hut]
    exact h.links_eq u fun hu' => hu ((hsame u).trans hu')
  case wake =>
    rcases h.wake i w hw ((hsame _).symm.trans hu) hf with ⟨hmem, hwaiter⟩ | hwaiter
    · exact .inl ⟨List.mem_append_right _ (List.mem_of_ne_of_mem (by simp) hmem), hwaiter⟩
    · exact .inr hwaiter
  case wake_eq => exact h.wake_eq i w hw fun hu' => hu ((hsame _).trans hu')

/-- A link to a token that nothing holds is passed over. -/
theorem follow_of_not_isHeld (h : Spreading f r g (.follow t :: call))
    (hheld : g.isHeld t = false) : Spreading f r g call where
  spreads action hmem := h.spreads action (List.mem_cons_of_mem _ hmem)
  length_nodes := h.length_nodes
  isLocked_eq := h.isLocked_eq
  holdersOf_eq u := by simpa using h.holdersOf_eq u
  isCancelled_of := h.isCancelled_of
  reaches_of := h.reaches_of
  root := h.root.imp_left (List.mem_of_ne_of_mem (by simp))
  links u hu hf := by
    rcases h.links u hu hf with ⟨hmem, hsame⟩ | ⟨hnil, hall⟩
    · exact .inl ⟨List.mem_of_ne_of_mem (by simp) hmem, hsame⟩
    · refine .inr ⟨hnil, fun c hc hc' => ?_⟩
      rcases hall c hc hc' with hup | hmem | hmem
      · exact .inl hup
      · have hct : c ≠ t := by
          rintro rfl
          rw [h.isHeld_eq, hc'] at hheld
          cases hheld
        exact .inr (.inl (List.mem_of_ne_of_mem (by simpa using hct) hmem))
      · exact .inr (.inr (List.mem_of_ne_of_mem (by simp) hmem))
  links_eq := h.links_eq
  length_waiters := h.length_waiters
  wake i w hw hu hf := by
    rcases h.wake i w hw hu hf with ⟨hmem, hwaiter⟩ | hwaiter
    · exact .inl ⟨List.mem_of_ne_of_mem (by simp) hmem, hwaiter⟩
    · exact .inr hwaiter
  wake_eq := h.wake_eq

/-- A link to a token that something holds is followed: the token is held until its flag is up. -/
theorem follow (h : Spreading f r g (.follow t :: call)) (hheld : g.isHeld t = true) :
    Spreading f r (g.retain t) (.raise t :: .release t :: call) := by
  obtain ⟨p, hp, hc⟩ := h.spreads _ List.mem_cons_self
  have hheld' : f.isHeld t = true := h.isHeld_eq t ▸ hheld
  have hsame (u : Token) : (g.retain t).isCancelled u = g.isCancelled u :=
    isCancelled_modifyNode fun _ => rfl
  have hlinks (u : Token) : (g.retain t).childrenOf u = g.childrenOf u :=
    childrenOf_modifyNode fun _ => rfl
  have hlater {action : Action} (hne : action ≠ .follow t) (hmem : action ∈ .follow t :: call) :
      action ∈ .raise t :: .release t :: call :=
    List.mem_cons_of_mem _ (List.mem_cons_of_mem _ (List.mem_of_ne_of_mem hne hmem))
  refine
    { spreads := fun action hmem => ?spreads, length_nodes := ?length_nodes
      isLocked_eq := fun u => ?isLocked_eq, holdersOf_eq := fun u => ?holdersOf_eq
      isCancelled_of := fun u hu => ?isCancelled_of, reaches_of := fun u hu hf => ?reaches_of
      root := ?root, links := fun u hu hf => ?links, links_eq := fun u hu => ?links_eq
      length_waiters := h.length_waiters, wake := fun i w hw hu hf => ?wake
      wake_eq := fun i w hw hu => ?wake_eq }
  -- the token is a child of one that was reached, and it is held
  case spreads =>
    rcases List.mem_cons.mp hmem with rfl | hmem
    · exact .inr ⟨p, hp, hc, hheld'⟩
    rcases List.mem_cons.mp hmem with rfl | hmem
    · exact hheld'
    · exact (h.spreads action (List.mem_cons_of_mem _ hmem)).mono fun u hu => (hsame u).trans hu
  case length_nodes => rw [retain, length_nodes_modifyNode, h.length_nodes]
  case isLocked_eq => exact Eq.trans (isLocked_modifyNode fun _ => rfl) (h.isLocked_eq u)
  -- one holder more now, and one to be released later
  case holdersOf_eq =>
    rw [holdersOf_retain (lt_length_of_isHeld hheld), h.holdersOf_eq,
      List.count_cons_of_ne (by simp), List.count_cons_of_ne (by simp), List.count_cons]
    by_cases hut : u = t
    · subst hut
      simp [Nat.add_assoc]
    · simp [hut, Ne.symm hut]
  case isCancelled_of => exact (hsame u).trans (h.isCancelled_of u hu)
  case reaches_of => exact h.reaches_of u ((hsame u).symm.trans hu) hf
  case root =>
    rw [hsame]
    exact h.root.imp_left (hlater (by simp))
  case links =>
    rw [hlinks]
    rcases h.links u ((hsame u).symm.trans hu) hf with ⟨hmem, hchildren⟩ | ⟨hnil, hall⟩
    · exact .inl ⟨hlater (by simp) hmem, hchildren⟩
    · refine .inr ⟨hnil, fun c hc hc' => ?_⟩
      rw [hsame]
      rcases hall c hc hc' with hup | hmem | hmem
      · exact .inl hup
      · -- the link that is followed has its token raised next
        by_cases hct : c = t
        · subst hct
          exact .inr (.inr List.mem_cons_self)
        · exact .inr (.inl (hlater (by simpa using hct) hmem))
      · exact .inr (.inr (hlater (by simp) hmem))
  case links_eq =>
    rw [hlinks]
    exact h.links_eq u fun hu' => hu ((hsame u).trans hu')
  case wake =>
    rcases h.wake i w hw ((hsame _).symm.trans hu) hf with ⟨hmem, hwaiter⟩ | hwaiter
    · exact .inl ⟨hlater (by simp) hmem, hwaiter⟩
    · exact .inr hwaiter
  case wake_eq => exact h.wake_eq i w hw fun hu' => hu ((hsame _).trans hu')

/-- The call gives back what it held for a while. -/
theorem release (h : Spreading f r g (.release t :: call)) :
    Spreading f r (g.release t) call := by
  have hsame (u : Token) : (g.release t).isCancelled u = g.isCancelled u :=
    isCancelled_modifyNode fun _ => rfl
  have hlinks (u : Token) : (g.release t).childrenOf u = g.childrenOf u :=
    childrenOf_modifyNode fun _ => rfl
  refine
    { spreads := fun action hmem => ?spreads, length_nodes := ?length_nodes
      isLocked_eq := fun u => ?isLocked_eq, holdersOf_eq := fun u => ?holdersOf_eq
      isCancelled_of := fun u hu => ?isCancelled_of, reaches_of := fun u hu hf => ?reaches_of
      root := ?root, links := fun u hu hf => ?links, links_eq := fun u hu => ?links_eq
      length_waiters := h.length_waiters, wake := fun i w hw hu hf => ?wake
      wake_eq := fun i w hw hu => ?wake_eq }
  case spreads =>
    exact (h.spreads action (List.mem_cons_of_mem _ hmem)).mono fun u hu => (hsame u).trans hu
  case length_nodes => rw [Forest.release, length_nodes_modifyNode, h.length_nodes]
  case isLocked_eq => exact Eq.trans (isLocked_modifyNode fun _ => rfl) (h.isLocked_eq u)
  -- one holder fewer now, and one release fewer to come
  case holdersOf_eq =>
    rw [holdersOf_release, h.holdersOf_eq, List.count_cons]
    by_cases hut : u = t
    · subst hut
      simp
    · simp [hut, Ne.symm hut]
  case isCancelled_of => exact (hsame u).trans (h.isCancelled_of u hu)
  case reaches_of => exact h.reaches_of u ((hsame u).symm.trans hu) hf
  case root =>
    rw [hsame]
    exact h.root.imp_left (List.mem_of_ne_of_mem (by simp))
  case links =>
    rw [hlinks]
    rcases h.links u ((hsame u).symm.trans hu) hf with ⟨hmem, hchildren⟩ | ⟨hnil, hall⟩
    · exact .inl ⟨List.mem_of_ne_of_mem (by simp) hmem, hchildren⟩
    · refine .inr ⟨hnil, fun c hc hheld => ?_⟩
      rw [hsame]
      exact (hall c hc hheld).imp_right <| Or.imp (List.mem_of_ne_of_mem (by simp))
        (List.mem_of_ne_of_mem (by simp))
  case links_eq =>
    rw [hlinks]
    exact h.links_eq u fun hu' => hu ((hsame u).trans hu')
  case wake =>
    rcases h.wake i w hw ((hsame _).symm.trans hu) hf with ⟨hmem, hwaiter⟩ | hwaiter
    · exact .inl ⟨List.mem_of_ne_of_mem (by simp) hmem, hwaiter⟩
    · exact .inr hwaiter
  case wake_eq => exact h.wake_eq i w hw fun hu' => hu ((hsame _).trans hu')

/-- **One action keeps the account of how far the call has come.** -/
theorem perform {action : Action} {next : List Action} {g' : Forest}
    (h : Spreading f r g (action :: call)) (hperform : g.perform action = some (g', next)) :
    Spreading f r g' (next ++ call) := by
  have hspreads := h.spreads action List.mem_cons_self
  cases action with
  | raise t =>
    simp only [Forest.perform] at hperform
    split at hperform
    · rename_i hn
      obtain ⟨rfl, rfl⟩ := by simpa using hperform
      exact h.raise_of_isCancelled (.inr (List.getElem?_eq_none_iff.mp hn))
    · rename_i node hn
      have hc : g.isCancelled t = node.isCancelled := by rw [isCancelled, hn]
      split at hperform <;> obtain ⟨rfl, rfl⟩ := by simpa using hperform
      · rename_i hup
        exact h.raise_of_isCancelled (.inl (hc.trans hup))
      · rename_i hdown
        obtain ⟨ht, -⟩ := List.getElem?_eq_some_iff.mp hn
        exact h.raise ht (hc.trans (by simpa using hdown))
  | notify t =>
    obtain ⟨rfl, rfl⟩ := by simpa [Forest.perform] using hperform
    exact h.notify
  | takeChildren t =>
    have hchildren : ∀ node, g.nodes[t]? = some node → g.childrenOf t = node.children := by
      intro node hn
      rw [childrenOf, hn]
    have ht := lt_length_of_isCancelled hspreads.2
    simp only [Forest.perform, List.getElem?_eq_getElem ht] at hperform
    split at hperform
    · cases hperform
    · simp only [Option.some.injEq, Prod.mk.injEq] at hperform
      obtain ⟨rfl, rfl⟩ := hperform
      rw [← hchildren _ (List.getElem?_eq_getElem ht)]
      exact h.takeChildren
  | follow t =>
    simp only [Forest.perform] at hperform
    split at hperform <;> obtain ⟨rfl, rfl⟩ := by simpa using hperform
    · rename_i hheld
      exact h.follow hheld
    · rename_i hheld
      exact h.follow_of_not_isHeld (by simpa using hheld)
  | release t =>
    obtain ⟨rfl, rfl⟩ := by simpa [Forest.perform] using hperform
    exact h.release
  | _ => exact hspreads.elim

end Spreading

/-! ## What the call has done at its end

Nothing is on the agenda any more, so all that was reached has been raised, and everything else is
as it was. -/

/-- **A cancellation is carried out to its end** if no links are locked. -/
theorem spreading_cancel (hunlocked : ∀ t, f.isLocked t = false) (r : Token) :
    Spreading f r (f.cancel r) [] := by
  -- the account holds when the call begins, and every action keeps it
  have h : Spreading f r (f.run (cancelCall r)).1 (f.run (cancelCall r)).2 :=
    run_invariant (fun _ _ _ _ _ h hperform => h.perform hperform) (.begin f r)
  rcases run_stops f (cancelCall r) with hnil | ⟨action, rest, hstop, hnone⟩
  · rwa [hnil] at h
  · -- only a lock could hold up what a cancellation has to do
    exfalso
    rw [hstop] at h
    have hspreads := h.spreads action List.mem_cons_self
    cases action with
    | raise t =>
      simp only [perform] at hnone
      split at hnone
      · cases hnone
      · split at hnone
        · cases hnone
        · cases hnone
    | notify t => cases hnone
    | takeChildren t =>
      have hfree := (h.isLocked_eq t).trans (hunlocked t)
      simp only [perform] at hnone
      split at hnone
      · cases hnone
      · rename_i node hn
        rw [isLocked, hn] at hfree
        rw [if_neg (by simpa using hfree)] at hnone
        cases hnone
    | follow t =>
      simp only [perform] at hnone
      split at hnone
      · cases hnone
      · cases hnone
    | release t => cases hnone
    | _ => exact hspreads.elim

section

variable (hunlocked : ∀ t, f.isLocked t = false)
include hunlocked

/-- **Exactly the tokens that are reached are raised.** -/
theorem isCancelled_cancel_iff :
    (f.cancel r).isCancelled t = true ↔ f.isCancelled t = true ∨ Reaches f r t := by
  have h := spreading_cancel hunlocked r
  constructor
  · intro hup
    cases hf : f.isCancelled t with
    | true => exact .inl rfl
    | false => exact .inr (h.reaches_of t hup hf)
  · rintro (hup | hreaches)
    · exact h.isCancelled_of t hup
    · -- along the links, each child that something holds has been followed
      induction hreaches with
      | root hr _ =>
        rcases h.root with hmem | hup | hge
        · cases hmem
        · exact hup
        · exact absurd hr (Nat.not_lt.mpr hge)
      | child hp hc hheld _ ih =>
        rcases h.links _ ih hp.isCancelled_eq_false with ⟨hmem, -⟩ | ⟨-, hall⟩
        · cases hmem
        · rcases hall _ hc hheld with hup | hmem | hmem
          · exact hup
          · cases hmem
          · cases hmem

theorem isCancelled_cancel_of (h : f.isCancelled t = true) :
    (f.cancel r).isCancelled t = true :=
  (isCancelled_cancel_iff hunlocked).mpr (.inl h)

/-- The links of a token that is reached are gone. -/
theorem childrenOf_cancel_of_reaches (h : Reaches f r t) : (f.cancel r).childrenOf t = [] := by
  have hup := (isCancelled_cancel_iff hunlocked).mpr (.inr h)
  obtain ⟨hmem, -⟩ | ⟨hnil, -⟩ :=
    (spreading_cancel hunlocked r).links t hup h.isCancelled_eq_false
  · cases hmem
  · exact hnil

/-- The links of a token that is not reached are left alone. -/
theorem childrenOf_cancel (h : ¬ Reaches f r t) : (f.cancel r).childrenOf t = f.childrenOf t :=
  (spreading_cancel hunlocked r).links_eq t fun hup =>
    ((isCancelled_cancel_iff hunlocked).mp hup).resolve_right h

/-- So links are taken or left alone, and none is new. -/
theorem mem_childrenOf_of_cancel (h : c ∈ (f.cancel r).childrenOf t) : c ∈ f.childrenOf t := by
  by_cases hreaches : Reaches f r t
  · rw [childrenOf_cancel_of_reaches hunlocked hreaches] at h
    cases h
  · rwa [childrenOf_cancel hunlocked hreaches] at h

@[simp]
theorem holdersOf_cancel : (f.cancel r).holdersOf t = f.holdersOf t :=
  (spreading_cancel hunlocked r).holdersOf_eq t

@[simp]
theorem isHeld_cancel : (f.cancel r).isHeld t = f.isHeld t :=
  (spreading_cancel hunlocked r).isHeld_eq t

@[simp]
theorem isLocked_cancel : (f.cancel r).isLocked t = f.isLocked t :=
  (spreading_cancel hunlocked r).isLocked_eq t

@[simp]
theorem length_nodes_cancel : (f.cancel r).nodes.length = f.nodes.length :=
  (spreading_cancel hunlocked r).length_nodes

/-- Those who listen at a token that is reached are notified, and no others. -/
theorem getElem?_waiters_cancel {i : WaiterId} {w : Waiter} (hw : f.waiters[i]? = some w) :
    (Reaches f r w.token → (f.cancel r).waiters[i]? = some w.wake) ∧
      (¬ Reaches f r w.token → (f.cancel r).waiters[i]? = some w) := by
  have h := spreading_cancel hunlocked r
  refine ⟨fun hreaches => ?_, fun hnot => ?_⟩
  · have hup := (isCancelled_cancel_iff hunlocked).mpr (.inr hreaches)
    rcases h.wake i w hw hup hreaches.isCancelled_eq_false with ⟨hmem, -⟩ | hwaiter
    · cases hmem
    · exact hwaiter
  · exact h.wake_eq i w hw fun hup => ((isCancelled_cancel_iff hunlocked).mp hup).resolve_right hnot

end

end Forest

end EdgeInclude.Cancellation
