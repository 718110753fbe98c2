import EdgeInclude.Cancellation.Registry
import EdgeInclude.Proofs.Cancellation.Reach

/-!
# Parents and children

When no call is under way, a forest is well-formed: links lead to tokens that exist, and nothing is
locked. All forests that handles and waiters can bring about are well-formed.

* **`SameTree`**: who holds a token and who waits for it does not count for that.
* **`WellFormed.cancel`**, **`WellFormed.child`**: the two calls end, and leave the forest
  well-formed.
* **`isCancelled_child`**, **`mem_childrenOf_child`**: a child is cancelled at birth if its parent is,
  and else linked to its parent alone.
* **`Lasting`**, **`Registry.foldl_step_of_lasting`**: what the calls keep holds of the forest of every
  registry. **`Registry.wellFormed_foldl_step`**: so it is well-formed, whatever was done to it.
-/

namespace EdgeInclude.Cancellation

namespace Forest

variable {f g : Forest} {p t u v c : Token}

/-- Links lead to tokens that exist, and no links are locked. -/
structure WellFormed (f : Forest) : Prop where
  lt_length : ∀ t c, c ∈ f.childrenOf t → c < f.nodes.length
  unlocked : ∀ t, f.isLocked t = false

theorem wellFormed_empty : WellFormed {} where
  lt_length t c h := by simp [childrenOf] at h
  unlocked t := by simp [isLocked]

/-- The flags, the links and their locks are the same. -/
structure SameTree (f g : Forest) : Prop where
  length_nodes : g.nodes.length = f.nodes.length
  isCancelled : ∀ t, g.isCancelled t = f.isCancelled t
  childrenOf : ∀ t, g.childrenOf t = f.childrenOf t
  isLocked : ∀ t, g.isLocked t = f.isLocked t

/-- Waiters do not count for what a forest looks like. -/
theorem SameTree.of_nodes_eq (h : g.nodes = f.nodes) : SameTree f g := by
  obtain ⟨nodes, waiters⟩ := f
  obtain ⟨nodes', waiters'⟩ := g
  obtain rfl : nodes' = nodes := h
  exact ⟨rfl, fun _ => rfl, fun _ => rfl, fun _ => rfl⟩

/-- What looks the same twice over looks the same. -/
theorem SameTree.trans {h : Forest} (hfg : SameTree f g) (hgh : SameTree g h) : SameTree f h where
  length_nodes := hgh.length_nodes.trans hfg.length_nodes
  isCancelled t := (hgh.isCancelled t).trans (hfg.isCancelled t)
  childrenOf t := (hgh.childrenOf t).trans (hfg.childrenOf t)
  isLocked t := (hgh.isLocked t).trans (hfg.isLocked t)

/-- How many hold a token does not count for what the tree looks like. -/
theorem sameTree_modifyHolders (f : Forest) (t : Token) (holders : Node → Nat) :
    SameTree f (f.modifyNode t fun node => { node with holders := holders node }) where
  length_nodes := length_nodes_modifyNode f t _
  isCancelled _ := isCancelled_modifyNode fun _ => rfl
  childrenOf _ := childrenOf_modifyNode fun _ => rfl
  isLocked _ := isLocked_modifyNode fun _ => rfl

theorem sameTree_retain (f : Forest) (t : Token) : SameTree f (f.retain t) :=
  sameTree_modifyHolders f t _

theorem sameTree_release (f : Forest) (t : Token) : SameTree f (f.release t) :=
  sameTree_modifyHolders f t _

/-- What looks like a well-formed forest is one. -/
theorem WellFormed.of_sameTree (hf : f.WellFormed) (h : SameTree f g) : g.WellFormed where
  lt_length t c hc := by
    rw [h.childrenOf] at hc
    rw [h.length_nodes]
    exact hf.lt_length t c hc
  unlocked t := (h.isLocked t).trans (hf.unlocked t)

/-- Cancelling ends with nothing locked, and makes no new links. -/
theorem WellFormed.cancel (hf : f.WellFormed) : (f.cancel t).WellFormed where
  lt_length u c h := by
    rw [length_nodes_cancel hf.unlocked]
    exact hf.lt_length u c (mem_childrenOf_of_cancel hf.unlocked h)
  unlocked u := by
    rw [isLocked_cancel hf.unlocked]
    exact hf.unlocked u

/-- A token that is there is cancelled by its own cancellation. -/
theorem isCancelled_cancel_self (hf : f.WellFormed) (ht : t < f.nodes.length) :
    (f.cancel t).isCancelled t = true := by
  rw [isCancelled_cancel_iff hf.unlocked]
  cases hup : f.isCancelled t with
  | true => exact .inl rfl
  | false => exact .inr (.root ht hup)

/-- Nothing is cancelled by a token that is not there. -/
theorem cancel_of_length_le (ht : f.nodes.length ≤ t) : f.cancel t = f := by
  have hraise : f.perform (.raise t) = some (f, []) := by
    rw [perform, List.getElem?_eq_none ht]
  show (f.run [.raise t]).1 = f
  rw [run_cons_of_perform hraise, List.append_nil, run_nil]

/-! ## New tokens

A new token comes after all others. It has no links, and its flag is down. -/

theorem getElem?_nodes_create (f : Forest) (u : Token) :
    f.create.2.nodes[u]? = if u = f.nodes.length then some {} else f.nodes[u]? := by
  rw [create]
  by_cases hu : u = f.nodes.length
  · rw [if_pos hu, hu]
    exact List.getElem?_concat_length
  · rw [if_neg hu]
    by_cases hlt : u < f.nodes.length
    · exact List.getElem?_append_left hlt
    · have hge : f.nodes.length < u := Nat.lt_of_le_of_ne (Nat.not_lt.mp hlt) (Ne.symm hu)
      rw [List.getElem?_eq_none (Nat.not_lt.mp hlt), List.getElem?_eq_none]
      simp only [List.length_append, List.length_cons, List.length_nil]
      exact hge

@[simp]
theorem length_nodes_create (f : Forest) : f.create.2.nodes.length = f.nodes.length + 1 := by
  simp [create]

/-- No flag is raised by it. -/
@[simp]
theorem isCancelled_create (f : Forest) (u : Token) :
    f.create.2.isCancelled u = f.isCancelled u := by
  rw [isCancelled, isCancelled, getElem?_nodes_create]
  by_cases hu : u = f.nodes.length
  · rw [if_pos hu, hu, List.getElem?_eq_none (Nat.le_refl _)]
  · rw [if_neg hu]

/-- Nothing is locked by it. -/
@[simp]
theorem isLocked_create (f : Forest) (u : Token) : f.create.2.isLocked u = f.isLocked u := by
  rw [isLocked, isLocked, getElem?_nodes_create]
  by_cases hu : u = f.nodes.length
  · rw [if_pos hu, hu, List.getElem?_eq_none (Nat.le_refl _)]
  · rw [if_neg hu]

/-- Nothing is linked by it. -/
@[simp]
theorem childrenOf_create (f : Forest) (u : Token) : f.create.2.childrenOf u = f.childrenOf u := by
  rw [childrenOf, childrenOf, getElem?_nodes_create]
  by_cases hu : u = f.nodes.length
  · rw [if_pos hu, hu, List.getElem?_eq_none (Nat.le_refl _)]
  · rw [if_neg hu]

/-- A new token is held once. -/
theorem holdersOf_create (f : Forest) (u : Token) :
    f.create.2.holdersOf u = if u = f.nodes.length then 1 else f.holdersOf u := by
  rw [holdersOf, holdersOf, getElem?_nodes_create]
  by_cases hu : u = f.nodes.length
  · rw [if_pos hu, if_pos hu]
  · rw [if_neg hu, if_neg hu]

/-- **A well-formed forest with a new token is one.** -/
theorem WellFormed.create (hf : f.WellFormed) : f.create.2.WellFormed where
  lt_length u c h := by
    rw [childrenOf_create] at h
    rw [length_nodes_create]
    exact Nat.lt_succ_of_lt (hf.lt_length u c h)
  unlocked u := by
    rw [isLocked_create]
    exact hf.unlocked u

/-! ## Children

A child is a new token with a parent. The call locks the links of the parent and reads its flag;
then it links the child, or raises the child's flag too. -/

/-- Locking links that are not locked and unlocking them again changes nothing. -/
theorem modifyNode_unlock_lock (h : f.isLocked t = false) :
    ((f.modifyNode t fun node => { node with isLocked := true }).modifyNode t
      fun node => { node with isLocked := false }) = f := by
  rw [modifyNode, modifyNode, List.modify_modify_eq]
  have hnodes : f.nodes.modify t
      ((fun node : Node => { node with isLocked := false }) ∘
        fun node => { node with isLocked := true }) = f.nodes := by
    refine List.ext_getElem? fun u => ?_
    rw [List.getElem?_modify]
    cases hn : f.nodes[u]? with
    | none => rfl
    | some node =>
      show some (if t = u then _ else node) = some node
      split
      · rename_i htu
        subst htu
        have hfree : node.isLocked = false := by
          rw [isLocked, hn] at h
          exact h
        obtain ⟨isCancelled, holders, children, isLocked⟩ := node
        obtain rfl : isLocked = false := hfree
        rfl
      · rfl
  rw [hnodes]

/-- The links of a parent without lock are locked at once. -/
theorem run_adoptCall (h : f.isLocked p = false) :
    f.run (adoptCall p c) =
      (f.modifyNode p fun node => { node with isLocked := true }).run [.attach p c] := by
  have hlock : f.perform (.lock p) =
      some (f.modifyNode p fun node => { node with isLocked := true }, []) := by
    rw [perform, if_neg (by simp [h])]
  exact run_cons_of_perform hlock

/-- Under its lock a parent has the flag that it had before the child was made. -/
theorem isCancelled_lock (f : Forest) (p : Token) :
    (f.create.2.modifyNode p fun node => { node with isLocked := true }).isCancelled p =
      f.isCancelled p :=
  Eq.trans (isCancelled_modifyNode fun _ => rfl) (isCancelled_create f p)

/-- The child of a cancelled token is cancelled at once. -/
theorem child_of_isCancelled (hf : f.WellFormed) (h : f.isCancelled p = true) :
    f.child p = (f.nodes.length, f.create.2.cancel f.nodes.length) := by
  have hfree : f.create.2.isLocked p = false := (isLocked_create f p).trans (hf.unlocked p)
  have hattach : (f.create.2.modifyNode p fun node => { node with isLocked := true }).perform
      (.attach p f.nodes.length) =
      some (f.create.2.modifyNode p fun node => { node with isLocked := true },
        [.unlock p, .raise f.nodes.length]) := by
    rw [perform, if_pos ((isCancelled_lock f p).trans h)]
  show (f.nodes.length, (f.create.2.run (adoptCall p f.nodes.length)).1) = _
  rw [run_adoptCall hfree, run_cons_of_perform hattach, List.cons_append, run_cons_of_perform rfl,
    modifyNode_unlock_lock hfree]
  rfl

/-- The child of a token that is not cancelled is linked to it. -/
theorem child_of_not_isCancelled (hf : f.WellFormed) (h : f.isCancelled p = false) :
    f.child p = (f.nodes.length, f.create.2.modifyNode p fun node =>
      { node with
        children := node.children.filter f.create.2.isHeld ++ [f.nodes.length]
        isLocked := false }) := by
  -- the call locks the parent, looks at its flag, makes the link and unlocks
  have hfree : f.create.2.isLocked p = false := (isLocked_create f p).trans (hf.unlocked p)
  have hattach : (f.create.2.modifyNode p fun node => { node with isLocked := true }).perform
      (.attach p f.nodes.length) =
      some (f.create.2.modifyNode p fun node => { node with isLocked := true },
        [.link p f.nodes.length]) := by
    rw [perform, if_neg (by simp [isCancelled_lock, h])]
  have hheld : (f.create.2.modifyNode p fun node => { node with isLocked := true }).isHeld =
      f.create.2.isHeld := by
    funext u
    rw [isHeld_eq, isHeld_eq, holdersOf_modifyNode]
    exact fun _ => rfl
  show (f.nodes.length, (f.create.2.run (adoptCall p f.nodes.length)).1) = _
  rw [run_adoptCall hfree, run_cons_of_perform hattach, List.cons_append, run_cons_of_perform rfl,
    List.nil_append, List.nil_append, run_nil, hheld, modifyNode, modifyNode,
    List.modify_modify_eq]
  rfl

theorem childrenOf_of_length_le (h : f.nodes.length ≤ t) : f.childrenOf t = [] := by
  rw [childrenOf, List.getElem?_eq_none h]

/-- What has no links reaches nothing but itself. -/
theorem Reaches.eq_of_childrenOf (h : Reaches f v u) (hleaf : f.childrenOf v = []) : u = v := by
  induction h with
  | root => rfl
  | child _ hc _ _ ih =>
    rw [ih, hleaf] at hc
    cases hc

/-- Cancelling a new token reaches nothing else. -/
theorem reaches_create_iff : Reaches f.create.2 f.nodes.length u ↔ u = f.nodes.length := by
  constructor
  · intro h
    refine h.eq_of_childrenOf ?_
    rw [childrenOf_create, childrenOf_of_length_le (Nat.le_refl _)]
  · rintro rfl
    refine .root (by simp) ?_
    rw [isCancelled_create, isCancelled, List.getElem?_eq_none (Nat.le_refl _)]

section

variable (hf : f.WellFormed)
include hf

/-- A child is one token more. -/
theorem length_nodes_child : (f.child p).2.nodes.length = f.nodes.length + 1 := by
  cases h : f.isCancelled p with
  | true => rw [child_of_isCancelled hf h, length_nodes_cancel hf.create.unlocked,
      length_nodes_create]
  | false => rw [child_of_not_isCancelled hf h, length_nodes_modifyNode, length_nodes_create]

/-- **A child is cancelled at birth exactly if its parent is.** No other flag changes. -/
theorem isCancelled_child :
    (f.child p).2.isCancelled u = if u = f.nodes.length then f.isCancelled p else f.isCancelled u := by
  cases h : f.isCancelled p with
  | true =>
    -- the child is cancelled right after it was made, when nothing hangs below it
    rw [child_of_isCancelled hf h, Bool.eq_iff_iff, isCancelled_cancel_iff hf.create.unlocked,
      isCancelled_create, reaches_create_iff]
    by_cases hu : u = f.nodes.length <;> simp [hu]
  | false =>
    have hsame : (f.child p).2.isCancelled u = f.create.2.isCancelled u := by
      rw [child_of_not_isCancelled hf h]
      exact isCancelled_modifyNode fun _ => rfl
    rw [hsame, isCancelled_create]
    by_cases hu : u = f.nodes.length
    · rw [if_pos hu, hu, isCancelled, List.getElem?_eq_none (Nat.le_refl _)]
    · rw [if_neg hu]

/-- A child is held once. Nothing else is held more or less than before. -/
theorem holdersOf_child :
    (f.child p).2.holdersOf u = if u = f.nodes.length then 1 else f.holdersOf u := by
  rw [← holdersOf_create]
  cases h : f.isCancelled p with
  | true => rw [child_of_isCancelled hf h, holdersOf_cancel hf.create.unlocked]
  | false =>
    rw [child_of_not_isCancelled hf h]
    exact holdersOf_modifyNode fun _ => rfl

theorem isHeld_child : (f.child p).2.isHeld f.nodes.length = true := by
  rw [isHeld_eq, holdersOf_child hf, if_pos rfl]
  rfl

/-- **A child is linked to its parent alone**, and no other link is new. -/
theorem mem_childrenOf_child (h : c ∈ (f.child p).2.childrenOf u) :
    c ∈ f.childrenOf u ∨ c = f.nodes.length ∧ u = p := by
  cases hp : f.isCancelled p with
  | true =>
    -- the child of a cancelled parent is cancelled at birth, which makes no link
    rw [child_of_isCancelled hf hp] at h
    have hc := mem_childrenOf_of_cancel hf.create.unlocked h
    rw [childrenOf_create] at hc
    exact .inl hc
  | false =>
    rw [child_of_not_isCancelled hf hp, childrenOf, getElem?_nodes_modifyNode,
      getElem?_nodes_create] at h
    by_cases hup : p = u
    · subst hup
      rw [if_pos rfl] at h
      by_cases hn : p = f.nodes.length
      · rw [if_pos hn] at h
        have hc : c = f.nodes.length := by simpa using h
        exact .inr ⟨hc, rfl⟩
      · -- the parent is an old token: its links are those that it had, and the new one
        rw [if_neg hn] at h
        rw [childrenOf]
        cases hnode : f.nodes[p]? with
        | none => rw [hnode] at h; cases h
        | some node =>
          rw [hnode] at h
          rcases List.mem_append.mp h with hmem | hmem
          · exact .inl (List.mem_filter.mp hmem).1
          · exact .inr ⟨List.mem_singleton.mp hmem, rfl⟩
    · rw [if_neg hup, ← getElem?_nodes_create] at h
      exact .inl (childrenOf_create f u ▸ h)

/-- A child of a token that is not cancelled can be reached from it. -/
theorem mem_childrenOf_child_self (hp : p < f.nodes.length) (h : f.isCancelled p = false) :
    f.nodes.length ∈ (f.child p).2.childrenOf p := by
  rw [child_of_not_isCancelled hf h, childrenOf, getElem?_nodes_modifyNode, if_pos rfl,
    getElem?_nodes_create, if_neg (Nat.ne_of_lt hp), List.getElem?_eq_getElem hp]
  exact List.mem_append_right _ (List.mem_singleton.mpr rfl)

/-- **A well-formed forest with a child is one.** -/
theorem WellFormed.child : (f.child p).2.WellFormed := by
  cases h : f.isCancelled p with
  | true =>
    rw [child_of_isCancelled hf h]
    exact hf.create.cancel
  | false =>
    refine ⟨fun u c hc => ?_, fun u => ?_⟩
    · rw [length_nodes_child hf]
      rcases mem_childrenOf_child hf hc with hc | ⟨rfl, -⟩
      · exact Nat.lt_succ_of_lt (hf.lt_length u c hc)
      · exact Nat.lt_succ_self _
    · rw [child_of_not_isCancelled hf h, isLocked, getElem?_nodes_modifyNode]
      have hfree := (isLocked_create f u).trans (hf.unlocked u)
      rw [isLocked] at hfree
      by_cases hup : p = u
      · rw [if_pos hup]
        cases f.create.2.nodes[u]? <;> rfl
      · rw [if_neg hup]
        exact hfree

end

/-! ## Waiting

Those who wait read flags and give their token back at the end. So they can be left out of account
where flags and links are concerned. -/

/-- What a waiter can have to do. -/
def Waits : Action → Prop
  | .listen _ | .check _ | .sleep _ | .release _ => True
  | _ => False

/-- Waiting leaves the tree as it is, and leads to waiting only. -/
theorem perform_waits {action : Action} {next : List Action} (ha : Waits action)
    (h : f.perform action = some (g, next)) : SameTree f g ∧ ∀ action ∈ next, Waits action := by
  cases action with
  | listen w =>
    obtain ⟨rfl, rfl⟩ := by simpa [perform] using h
    exact ⟨.of_nodes_eq rfl, by simp [Waits]⟩
  | check w =>
    simp only [perform] at h
    split at h
    · obtain ⟨rfl, rfl⟩ := by simpa using h
      exact ⟨.of_nodes_eq rfl, by simp⟩
    · split at h <;> simp only [Option.some.injEq, Prod.mk.injEq] at h <;> obtain ⟨rfl, rfl⟩ := h
      · exact ⟨.of_nodes_eq rfl, by simp [Waits]⟩
      · exact ⟨.of_nodes_eq rfl, by simp [Waits]⟩
  | sleep w =>
    simp only [perform] at h
    split at h
    · obtain ⟨rfl, rfl⟩ := by simpa using h
      exact ⟨.of_nodes_eq rfl, by simp⟩
    · split at h
      · obtain ⟨rfl, rfl⟩ := by simpa using h
        exact ⟨.of_nodes_eq rfl, by simp [Waits]⟩
      · cases h
  | release t =>
    obtain ⟨rfl, rfl⟩ := by simpa [perform] using h
    exact ⟨sameTree_release f t, by simp⟩
  | _ => exact ha.elim

/-- Whatever a waiter does changes nothing in the tree, and what it leaves undone is waiting again.
-/
theorem run_waits {call : List Action} (ha : ∀ action ∈ call, Waits action) :
    SameTree f (f.run call).1 ∧ ∀ action ∈ (f.run call).2, Waits action := by
  refine run_invariant (P := fun g call => SameTree f g ∧ ∀ action ∈ call, Waits action)
    (fun g g' action next call h hperform => ?_) ⟨.of_nodes_eq rfl, ha⟩
  obtain ⟨hsame, ha⟩ := h
  obtain ⟨hg, hnext⟩ := perform_waits (ha action List.mem_cons_self) hperform
  refine ⟨hsame.trans hg, fun action hmem => ?_⟩
  rcases List.mem_append.mp hmem with hmem | hmem
  · exact hnext action hmem
  · exact ha action (List.mem_cons_of_mem _ hmem)

/-! ## What lasts

Some facts are kept by all calls of handles, and do not look at holders and waiters. They are proved
for the calls once and hold of every registry. -/

/-- Nothing that can be done to a forest by calls takes the property away. -/
structure Lasting (P : Forest → Prop) : Prop where
  create : ∀ f, P f → P f.create.2
  child : ∀ f p, P f → P (f.child p).2
  cancel : ∀ f t, P f → P (f.cancel t)
  sameTree : ∀ f g, P f → SameTree f g → P g

/-- Being well-formed is such a fact. -/
theorem lasting_wellFormed : Lasting WellFormed where
  create _ hf := hf.create
  child _ _ hf := hf.child
  cancel _ _ hf := hf.cancel
  sameTree _ _ hf h := hf.of_sameTree h

end Forest

/-! ## Registries

The operations of a registry are calls of its forest, and then every waiter goes on. -/

namespace Registry

open Forest

variable {r : Registry} {P : Forest → Prop}

/-- The forest of a registry is well-formed, and its waiters do nothing but wait. -/
structure WellFormed (r : Registry) : Prop where
  forest : r.forest.WellFormed
  waits : ∀ p ∈ r.waiters, ∀ action ∈ p.todo, Waits action

theorem wellFormed_empty : WellFormed {} where
  forest := Forest.wellFormed_empty
  waits _ h := by cases h

/-- What lasts is kept by every operation on handles and waiters. -/
theorem apply_of_lasting (hP : Lasting P) (h : P r.forest) (op : Operation) :
    P (r.apply op).forest := by
  cases op with
  | create => exact hP.create _ h
  | clone i =>
    rw [Registry.apply]
    cases r.token? i with
    | none => exact h
    | some t => exact hP.sameTree _ _ h (sameTree_retain r.forest t)
  | child i =>
    rw [Registry.apply]
    cases r.token? i with
    | none => exact h
    | some t => exact hP.child _ t h
  | cancel i =>
    rw [Registry.apply]
    cases r.token? i with
    | none => exact h
    | some t => exact hP.cancel _ t h
  | drop i =>
    rw [Registry.apply]
    cases r.token? i with
    | none => exact h
    | some t => exact hP.sameTree _ _ h (sameTree_release r.forest t)
  | wait i =>
    rw [Registry.apply]
    cases r.token? i with
    | none => exact h
    | some t => exact hP.sameTree _ _ h ((sameTree_retain r.forest t).trans (.of_nodes_eq rfl))
  | dropWaiter w =>
    rw [Registry.apply]
    cases r.waiters[w]? with
    | none => exact h
    | some p =>
      show P (if p.isActive then _ else r).forest
      split
      · exact hP.sameTree _ _ h ((sameTree_release r.forest p.token).trans (.of_nodes_eq rfl))
      · exact h

/-- An operation keeps it well-formed. -/
theorem WellFormed.apply (hr : r.WellFormed) (op : Operation) : (r.apply op).WellFormed where
  forest := apply_of_lasting lasting_wellFormed hr.forest op
  waits := by
    cases op with
    | create => exact hr.waits
    | clone h | child h | cancel h | drop h =>
      rw [Registry.apply]
      cases r.token? h <;> exact hr.waits
    | wait h =>
      rw [Registry.apply]
      cases r.token? h with
      | none => exact hr.waits
      | some t =>
        -- a waiter begins by listening
        intro p hp
        rcases List.mem_append.mp hp with hp | hp
        · exact hr.waits p hp
        · obtain rfl := List.mem_singleton.mp hp
          simp [waitCall, Waits]
    | dropWaiter w =>
      rw [Registry.apply]
      cases hw : r.waiters[w]? with
      | none => exact hr.waits
      | some p =>
        show ∀ q ∈ (if p.isActive then _ else r).waiters, _
        split
        · intro q hq
          rcases List.mem_or_eq_of_mem_set hq with hq | rfl
          · exact hr.waits q hq
          · exact hr.waits p (List.mem_of_getElem? hw)
        · exact hr.waits

/-- Waiters that go on leave the tree as it is, and do nothing but wait. -/
theorem pollAll_waits {f : Forest} {ps : List Pending}
    (hps : ∀ p ∈ ps, ∀ action ∈ p.todo, Waits action) :
    SameTree f (pollAll f ps).1 ∧ ∀ p ∈ (pollAll f ps).2, ∀ action ∈ p.todo, Waits action := by
  induction ps generalizing f with
  | nil => exact ⟨.of_nodes_eq rfl, hps⟩
  | cons p ps ih =>
    have hp := hps p List.mem_cons_self
    have hps' : ∀ p ∈ ps, ∀ action ∈ p.todo, Waits action := fun p hmem =>
      hps p (List.mem_cons_of_mem _ hmem)
    simp only [pollAll]
    split
    · obtain ⟨hsame, htodo⟩ := run_waits (f := f) hp
      obtain ⟨hg, hrest⟩ := ih (f := (f.run p.todo).1) hps'
      refine ⟨hsame.trans hg, fun q hq => ?_⟩
      rcases List.mem_cons.mp hq with rfl | hq
      · exact htodo
      · exact hrest q hq
    · obtain ⟨hg, hrest⟩ := ih (f := f) hps'
      refine ⟨hg, fun q hq => ?_⟩
      rcases List.mem_cons.mp hq with rfl | hq
      · exact hp
      · exact hrest q hq

theorem WellFormed.step (hr : r.WellFormed) (op : Operation) : (r.step op).WellFormed := by
  have happly := hr.apply op
  obtain ⟨hsame, hwaits⟩ := pollAll_waits (f := (r.apply op).forest) happly.waits
  exact ⟨happly.forest.of_sameTree hsame, hwaits⟩

/-- **Whatever is done to a registry, its forest stays well-formed.** -/
theorem wellFormed_foldl_step (ops : List Operation) : (ops.foldl step {}).WellFormed := by
  induction ops using List.reverseRecOn with
  | nil => exact wellFormed_empty
  | append_singleton ops op ih =>
    rw [List.foldl_append]
    exact ih.step op

/-- What lasts holds of the forest of every registry, if it holds of the empty one. -/
theorem foldl_step_of_lasting (hP : Lasting P) (h : P {}) (ops : List Operation) :
    P (ops.foldl step {}).forest := by
  induction ops using List.reverseRecOn with
  | nil => exact h
  | append_singleton ops op ih =>
    rw [List.foldl_append]
    have hwaits := ((wellFormed_foldl_step ops).apply op).waits
    exact hP.sameTree _ _ (apply_of_lasting hP ih op) (pollAll_waits hwaits).1

end Registry

end EdgeInclude.Cancellation
