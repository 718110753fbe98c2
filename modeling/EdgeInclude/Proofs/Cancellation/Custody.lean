import EdgeInclude.Proofs.Cancellation.Lineage

/-!
# Handles, waiters and what they hold

Between two operations on a registry no call is under way. A token is then held exactly by its handles
and by the waiters that are still asleep, and a waiter is asleep as long as the flag of its token is
down: it listens, and no notification has reached it.

* **`Registry.Holds`**, **`Registry.kinships`**: who holds a token, and who was made as a child of
  whom, both read off the operations alone.
* **`Pending.Ready`**, **`Pending.Resting`**: a waiter before it goes on and after.
* **`Registry.Kept`**: the books of a registry are right. **`Kept.apply`**: an operation keeps them
  and leaves every waiter ready; **`Kept.poll`**: a waiter that is ready goes on until it rests.
* **`Registry.kept_foldl_step`**: so the books are right whatever is done.
-/

namespace EdgeInclude.Cancellation

variable {f g : Forest} {kin : List (Token × Token)} {t u : Token}

namespace Forest

/-- A change of one waiter is seen at its own place alone. -/
theorem getElem?_waiters_modifyWaiter (f : Forest) (i j : WaiterId) (change : Waiter → Waiter) :
    (f.modifyWaiter i change).waiters[j]? =
      if i = j then f.waiters[j]?.map change else f.waiters[j]? := by
  rw [modifyWaiter, List.getElem?_modify]
  split
  · rfl
  · exact id_map _

theorem sameTree_modifyWaiter (f : Forest) (i : WaiterId) (change : Waiter → Waiter) :
    SameTree f (f.modifyWaiter i change) :=
  .of_nodes_eq rfl

@[simp]
theorem holdersOf_modifyWaiter (f : Forest) (i : WaiterId) (change : Waiter → Waiter) (t : Token) :
    (f.modifyWaiter i change).holdersOf t = f.holdersOf t := rfl

theorem holdersOf_of_length_le (h : f.nodes.length ≤ t) : f.holdersOf t = 0 := by
  rw [holdersOf, List.getElem?_eq_none h]

/-- A new token has one holder, and the others have those they had. -/
theorem holdersOf_create_add (f : Forest) (u : Token) :
    f.create.2.holdersOf u = f.holdersOf u + if u = f.nodes.length then 1 else 0 := by
  rw [holdersOf_create]
  by_cases hu : u = f.nodes.length
  · rw [if_pos hu, if_pos hu, holdersOf_of_length_le (Nat.le_of_eq hu.symm)]
  · rw [if_neg hu, if_neg hu, Nat.add_zero]

theorem isHeld_iff : f.isHeld t = true ↔ 0 < f.holdersOf t := by
  rw [isHeld_eq, decide_eq_true_eq]

/-- Holding a token once more holds no other token. -/
theorem isHeld_of_retain (ht : f.isHeld t = true) (hu : (f.retain t).isHeld u = true) :
    f.isHeld u = true := by
  rw [isHeld_iff, holdersOf_retain (lt_length_of_isHeld ht)] at hu
  by_cases hut : u = t
  · rwa [hut]
  · rw [if_neg hut] at hu
    exact isHeld_iff.mpr hu

theorem isHeld_of_release (hu : (f.release t).isHeld u = true) : f.isHeld u = true := by
  rw [isHeld_iff, holdersOf_release] at hu
  rw [isHeld_iff]
  omega

/-- A new child reaches nobody who waits for an older token. -/
theorem getElem?_waiters_child {i : WaiterId} {w : Waiter} (hf : f.WellFormed) {p : Token}
    (hw : f.waiters[i]? = some w) (hlt : w.token < f.nodes.length) :
    (f.child p).2.waiters[i]? = some w := by
  cases hp : f.isCancelled p with
  | true =>
    rw [child_of_isCancelled hf hp]
    have hnot : ¬ Reaches f.create.2 f.nodes.length w.token := fun h =>
      absurd (reaches_create_iff.mp h) (Nat.ne_of_lt hlt)
    exact (getElem?_waiters_cancel (f := f.create.2) hf.create.unlocked hw).2 hnot
  | false =>
    rw [child_of_not_isCancelled hf hp]
    exact hw

theorem length_waiters_cancel (hf : f.WellFormed) :
    (f.cancel t).waiters.length = f.waiters.length :=
  (spreading_cancel hf.unlocked t).length_waiters

/-- Making a child adds nobody who waits. -/
theorem length_waiters_child (hf : f.WellFormed) {p : Token} :
    (f.child p).2.waiters.length = f.waiters.length := by
  cases hp : f.isCancelled p with
  | true =>
    rw [child_of_isCancelled hf hp]
    exact length_waiters_cancel (f := f.create.2) hf.create
  | false =>
    rw [child_of_not_isCancelled hf hp]
    rfl

/-! ## Who holds what

A forest counts holders without saying who they are. Custody says that the count is the one that
somebody outside keeps: one for each handle, and one for each waiter that still waits. Each call of
the forest changes both counts in step. -/

/-- The books of a forest are right: `held` says how many hold each token, and `kin` who was made as a
child of whom. -/
structure Custody (f : Forest) (held : Token → Nat) (kin : List (Token × Token)) : Prop
    extends Kindred f kin where
  holdersOf_eq : ∀ t, f.holdersOf t = held t

namespace Custody

variable {held held' : Token → Nat} (hf : f.Custody held kin)
include hf

theorem isHeld_iff_pos : f.isHeld t = true ↔ 0 < held t := by
  rw [isHeld_iff, hf.holdersOf_eq]

/-- Nothing holds a token before it is made. -/
theorem held_length : held f.nodes.length = 0 := by
  rw [← hf.holdersOf_eq]
  exact holdersOf_of_length_le (Nat.le_refl _)

theorem create (hheld : ∀ u, held' u = held u + if u = f.nodes.length then 1 else 0) :
    f.create.2.Custody held' kin where
  toKindred := hf.toKindred.create
  holdersOf_eq u := by rw [holdersOf_create_add, hheld, hf.holdersOf_eq]

/-- The books stay right when a token is made as a child, and it is put down who its parent is. -/
theorem child {p : Token} (hp : 0 < held p)
    (hheld : ∀ u, held' u = held u + if u = f.nodes.length then 1 else 0) :
    (f.child p).2.Custody held' (kin ++ [(p, f.nodes.length)]) where
  toKindred := hf.toKindred.child (lt_length_of_isHeld (hf.isHeld_iff_pos.mpr hp))
  holdersOf_eq u := by
    rw [holdersOf_child hf.toWellFormed, hheld, hf.holdersOf_eq]
    by_cases hu : u = f.nodes.length
    · rw [if_pos hu, if_pos hu, hu, hf.held_length]
    · rw [if_neg hu, if_neg hu, Nat.add_zero]

theorem cancel (t : Token) : (f.cancel t).Custody held kin where
  toKindred := hf.toKindred.cancel t
  holdersOf_eq u := (holdersOf_cancel hf.unlocked).trans (hf.holdersOf_eq u)

/-- A token that is held may be held once more. -/
theorem retain (ht : 0 < held t) (hheld : ∀ u, held' u = held u + if u = t then 1 else 0) :
    (f.retain t).Custody held' kin := by
  have ht := hf.isHeld_iff_pos.mpr ht
  refine ⟨hf.toKindred.of_sameTree (sameTree_retain _ _) fun _ => isHeld_of_retain ht, fun u => ?_⟩
  rw [holdersOf_retain (lt_length_of_isHeld ht), hheld, hf.holdersOf_eq]

/-- The books lose one holder for the token. -/
theorem release (t : Token) (hheld : ∀ u, held' u + (if u = t then 1 else 0) = held u) :
    (f.release t).Custody held' kin := by
  refine ⟨hf.toKindred.of_sameTree (sameTree_release _ _) fun _ => isHeld_of_release, fun u => ?_⟩
  have := hheld u
  rw [holdersOf_release, hf.holdersOf_eq]
  omega

/-- What happens to waiters is nothing to the books. -/
theorem of_nodes_eq (h : g.nodes = f.nodes) : g.Custody held kin := by
  have hholders (u : Token) : g.holdersOf u = f.holdersOf u := by rw [holdersOf, holdersOf, h]
  refine ⟨hf.toKindred.of_sameTree (.of_nodes_eq h) fun u hu => ?_, fun u => ?_⟩
  · rwa [isHeld_iff, hholders, ← isHeld_iff] at hu
  · rw [hholders, hf.holdersOf_eq]

end Custody

/-! ## One who begins to wait, or goes on

A waiter listens, reads the flag, and then sleeps or is done. Each part of that is run through once
here, for a flag that is down and for one that is up. -/

section

variable {i : WaiterId} {w : Waiter}

/-- Without a notification a sleeper sleeps on. -/
theorem run_sleep_not_notified (hw : f.waiters[i]? = some w) (hn : w.isNotified = false) :
    f.run [.sleep i] = (f, [.sleep i]) := by
  have hstay : f.perform (.sleep i) = none := by
    simp only [perform, hw, hn, Bool.false_eq_true, if_false]
  rw [run_cons, hstay]

/-- Whoever was notified begins afresh. -/
theorem run_sleep_notified (hw : f.waiters[i]? = some w) (hn : w.isNotified = true) :
    f.run [.sleep i] = (f.modifyWaiter i fun w =>
      { w with isListening := false, isNotified := false }).run [.listen i] := by
  have hwake : f.perform (.sleep i) = some (f.modifyWaiter i fun w =>
      { w with isListening := false, isNotified := false }, [.listen i]) := by
    simp only [perform, hw, hn, if_true]
  rw [run_cons_of_perform hwake, List.append_nil]

/-- Who finds the flag down falls asleep. -/
theorem run_check_down (hw : f.waiters[i]? = some w) (hn : w.isNotified = false)
    (hdown : f.isCancelled w.token = false) : f.run [.check i] = (f, [.sleep i]) := by
  have hcheck : f.perform (.check i) = some (f, [.sleep i]) := by
    simp only [perform, hw, hdown, Bool.false_eq_true, if_false]
  rw [run_cons_of_perform hcheck, List.append_nil, run_sleep_not_notified hw hn]

/-- Whoever finds the flag up lets the token go. -/
theorem run_check_up (hw : f.waiters[i]? = some w) (hup : f.isCancelled w.token = true) :
    f.run [.check i] =
      ((f.modifyWaiter i fun w => { w with isListening := false }).release w.token, []) := by
  have hcheck : f.perform (.check i) =
      some (f.modifyWaiter i fun w => { w with isListening := false }, [.release w.token]) := by
    simp only [perform, hw, hup, if_true]
  rw [run_cons_of_perform hcheck, List.append_nil, run_cons_of_perform rfl, List.append_nil, run_nil]

/-- The waiter begins to listen. -/
def startListening (f : Forest) (i : WaiterId) : Forest :=
  f.modifyWaiter i fun w => { w with isListening := true, isNotified := false }

theorem getElem?_waiters_startListening (hw : f.waiters[i]? = some w) :
    (f.startListening i).waiters[i]? = some { w with isListening := true, isNotified := false } := by
  rw [startListening, getElem?_waiters_modifyWaiter, if_pos rfl, hw]
  rfl

theorem run_listen (f : Forest) (i : WaiterId) :
    f.run [.listen i] = (f.startListening i).run [.check i] := by
  rw [run_cons_of_perform rfl, List.append_nil, startListening]

theorem run_listen_down (hw : f.waiters[i]? = some w) (hdown : f.isCancelled w.token = false) :
    f.run [.listen i] = (f.startListening i, [.sleep i]) := by
  rw [run_listen, run_check_down (getElem?_waiters_startListening hw) rfl hdown]

/-- Once the flag is up, the wait is over and the token is given back. -/
theorem run_listen_up (hw : f.waiters[i]? = some w) (hup : f.isCancelled w.token = true) :
    ∃ change : Waiter → Waiter,
      f.run [.listen i] = ((f.modifyWaiter i change).release w.token, []) := by
  refine ⟨(fun w => { w with isListening := false }) ∘
    fun w => { w with isListening := true, isNotified := false }, ?_⟩
  rw [run_listen, run_check_up (getElem?_waiters_startListening hw) hup, startListening, modifyWaiter,
    modifyWaiter, List.modify_modify_eq]
  rfl

end

end Forest

open Forest

/-! ## Lists with places for tokens

Handles are never renumbered: a handle that was dropped leaves an empty place. So holders are
counted in a list of places. -/

/-- A new handle is one more place for its token. -/
theorem count_concat (places : List (Option Token)) (t u : Token) :
    (places ++ [some u]).count (some t) = places.count (some t) + if t = u then 1 else 0 := by
  rw [List.count_append, List.count_singleton]
  by_cases h : t = u
  · simp [h]
  · simp [h, Ne.symm h]

/-- What is put in the place of a token takes its place in the count. -/
theorem count_set {places : List (Option Token)} {i : Nat} (h : places[i]? = some (some u))
    (new : Option Token) (t : Token) :
    (places.set i new).count (some t) + (if t = u then 1 else 0) =
      places.count (some t) + if new = some t then 1 else 0 := by
  obtain ⟨hi, hu⟩ := List.getElem?_eq_some_iff.mp h
  have hpos : 0 < places.count (some u) := List.count_pos_iff.mpr (List.mem_of_getElem? h)
  rw [List.count_set hi, hu]
  by_cases htu : t = u
  · subst htu
    simp only [beq_self_eq_true, if_true, beq_iff_eq]
    omega
  · simp [htu, Ne.symm htu]

/-! ## Waiters

A waiter of the registry holds its token as long as its wait is not over and it was not dropped.
Between two operations it rests: it sleeps at a flag that is down. -/

namespace Pending

variable {p q : Pending}

/-- The waiter holds the token. -/
def claims (p : Pending) (t : Token) : Bool := p.isActive && p.token == t

theorem claims_iff : p.claims t = true ↔ p.isActive = true ∧ p.token = t := by
  rw [claims, Bool.and_eq_true, beq_iff_eq]

/-- The waiter can go on. It begins to listen, or is asleep and has been notified if the flag of its
token is up. -/
structure Ready (f : Forest) (p : Pending) : Prop where
  awake : p.isActive = true →
    p.todo = [.listen p.id] ∧ (∃ w, f.waiters[p.id]? = some w ∧ w.token = p.token) ∨
      p.todo = [.sleep p.id] ∧ f.waiters[p.id]? = some ⟨p.token, true, f.isCancelled p.token⟩
  completed : p.isCompleted = true → f.isCancelled p.token = true

/-- The waiter cannot go on. It listens to a token whose flag is down, or its wait is over. -/
structure Resting (f : Forest) (p : Pending) : Prop where
  asleep : p.isActive = true → p.todo = [.sleep p.id] ∧
    f.waiters[p.id]? = some ⟨p.token, true, false⟩ ∧ f.isCancelled p.token = false
  completed : p.isCompleted = true → f.isCancelled p.token = true

/-- **A wait is over exactly if the flag is up**, unless the waiter was dropped before. -/
theorem Resting.isCompleted_iff (h : p.Resting f) (hdropped : p.isDropped = false) :
    p.isCompleted = true ↔ f.isCancelled p.token = true := by
  refine ⟨h.completed, fun hup => ?_⟩
  by_contra hcompleted
  have hactive : p.isActive = true := by
    simpa [isActive, hdropped] using hcompleted
  rw [(h.asleep hactive).2.2] at hup
  cases hup

/-- A waiter that rests is ready after what leaves its own state right. -/
theorem Resting.ready (h : p.Resting f)
    (hwaiter : p.isActive = true → g.waiters[p.id]? = some ⟨p.token, true, g.isCancelled p.token⟩)
    (hflag : f.isCancelled p.token = true → g.isCancelled p.token = true) : p.Ready g where
  awake hactive := .inr ⟨(h.asleep hactive).1, hwaiter hactive⟩
  completed hcompleted := hflag (h.completed hcompleted)

/-- Most operations concern neither the flag nor the waiter itself. -/
theorem Resting.ready_of_eq (h : p.Resting f)
    (hwaiter : p.isActive = true → g.waiters[p.id]? = f.waiters[p.id]?)
    (hflag : g.isCancelled p.token = f.isCancelled p.token) : p.Ready g := by
  refine h.ready (fun hactive => ?_) fun hup => hflag.trans hup
  obtain ⟨-, hw, hdown⟩ := h.asleep hactive
  rw [hwaiter hactive, hw, hflag, hdown]

/-- A waiter goes on resting if neither its own entry nor its flag was changed. -/
theorem Resting.of_eq (h : p.Resting f) (hwaiter : g.waiters[p.id]? = f.waiters[p.id]?)
    (hflag : g.isCancelled p.token = f.isCancelled p.token) : p.Resting g where
  asleep hactive := by
    rw [hwaiter, hflag]
    exact h.asleep hactive
  completed hcompleted := hflag.trans (h.completed hcompleted)

/-- A waiter has gone on until it rests. What it does concerns nobody else; if its wait is over it has
let its token go. -/
structure Polled (f : Forest) (p : Pending) (g : Forest) (q : Pending) : Prop where
  sameTree : SameTree f g
  id_eq : q.id = p.id
  token_eq : q.token = p.token
  isDropped_eq : q.isDropped = p.isDropped
  resting : q.Resting g
  others : ∀ j, j ≠ p.id → g.waiters[j]? = f.waiters[j]?
  length_waiters : g.waiters.length = f.waiters.length
  isHeld_of : ∀ t, g.isHeld t = true → f.isHeld t = true
  holdersOf_add : ∀ t, g.holdersOf t + (if p.claims t then 1 else 0) =
    f.holdersOf t + (if q.claims t then 1 else 0)

/-- The flag is down: the waiter falls asleep. -/
theorem polled_asleep {change : Waiter → Waiter} (hactive : p.isActive = true)
    (hdown : f.isCancelled p.token = false)
    (hw : (f.modifyWaiter p.id change).waiters[p.id]? = some ⟨p.token, true, false⟩) :
    Polled f p (f.modifyWaiter p.id change) { p with todo := [.sleep p.id] } where
  sameTree := .of_nodes_eq rfl
  id_eq := rfl
  token_eq := rfl
  isDropped_eq := rfl
  resting := ⟨fun _ => ⟨rfl, hw, hdown⟩, fun h => by simp [isCompleted] at h⟩
  others j hj := by rw [getElem?_waiters_modifyWaiter, if_neg (Ne.symm hj)]
  length_waiters := List.length_modify ..
  isHeld_of _ h := h
  holdersOf_add t := by
    have hstill : { p with todo := [.sleep p.id] }.claims t = p.claims t := by
      have hdropped : p.isDropped = false := by
        rw [isActive, Bool.and_eq_true, Bool.not_eq_true'] at hactive
        exact hactive.1
      rw [claims, claims, hactive]
      simp [isActive, isCompleted, hdropped]
    rw [hstill, holdersOf_modifyWaiter]

/-- The flag is up: the wait is over. -/
theorem polled_completed {change : Waiter → Waiter} (hactive : p.isActive = true)
    (hup : f.isCancelled p.token = true) (hheld : 0 < f.holdersOf p.token) :
    Polled f p ((f.modifyWaiter p.id change).release p.token) { p with todo := [] } where
  sameTree := (sameTree_modifyWaiter f _ _).trans (sameTree_release _ _)
  id_eq := rfl
  token_eq := rfl
  isDropped_eq := rfl
  resting := by
    refine ⟨fun h => by simp [isActive, isCompleted] at h, fun _ => ?_⟩
    rw [(sameTree_release _ _).isCancelled]
    exact hup
  others j hj := by
    show (f.modifyWaiter p.id change).waiters[j]? = _
    rw [getElem?_waiters_modifyWaiter, if_neg (Ne.symm hj)]
  length_waiters := List.length_modify ..
  isHeld_of _ := isHeld_of_release
  holdersOf_add t := by
    -- who has been told claims its token no longer
    have hgone : { p with todo := [] }.claims t = false := by simp [claims, isActive, isCompleted]
    rw [hgone, holdersOf_release, holdersOf_modifyWaiter, claims, hactive]
    by_cases ht : t = p.token
    · subst ht
      simp only [if_true, Bool.true_and, beq_self_eq_true, Bool.false_eq_true, if_false]
      omega
    · simp [ht, Ne.symm ht]

/-- **A waiter that is ready goes on until it rests.** -/
theorem Ready.polled (h : p.Ready f) (hactive : p.isActive = true)
    (hheld : 0 < f.holdersOf p.token) :
    Polled f p (f.run p.todo).1 { p with todo := (f.run p.todo).2 } := by
  rcases h.awake hactive with ⟨htodo, w, hw, htoken⟩ | ⟨htodo, hw⟩
  · rw [htodo]
    cases hflag : f.isCancelled p.token with
    | false =>
      rw [run_listen_down hw (htoken ▸ hflag)]
      refine polled_asleep hactive hflag ?_
      rw [← htoken]
      exact getElem?_waiters_startListening hw
    | true =>
      obtain ⟨change, hrun⟩ := run_listen_up hw (htoken ▸ hflag)
      rw [hrun, htoken]
      exact polled_completed hactive hflag hheld
  · rw [htodo]
    cases hflag : f.isCancelled p.token with
    | false =>
      rw [hflag] at hw
      rw [run_sleep_not_notified hw rfl]
      have hsame : f.modifyWaiter p.id (fun w => w) = f := by
        rw [modifyWaiter]
        exact congrArg (Forest.mk f.nodes) (List.modify_id ..)
      have hpolled : Polled f p (f.modifyWaiter p.id fun w => w) { p with todo := [.sleep p.id] } :=
        polled_asleep hactive hflag (by rw [hsame, hw])
      rwa [hsame] at hpolled
    | true =>
      -- it wakes up, and finds the flag up when it begins afresh
      rw [hflag] at hw
      rw [run_sleep_notified hw rfl]
      obtain ⟨change, hrun⟩ := run_listen_up (f := f.modifyWaiter p.id fun w =>
        { w with isListening := false, isNotified := false }) (w := ⟨p.token, false, false⟩)
        (by rw [getElem?_waiters_modifyWaiter, if_pos rfl, hw]; rfl) hflag
      rw [hrun, modifyWaiter, modifyWaiter, List.modify_modify_eq]
      exact polled_completed hactive hflag hheld

end Pending

namespace Registry

open Pending

variable {r r' : Registry} {op : Operation}

/-! ## Waiters one after the other

After each operation all waiters are polled in turn. What polling one of them does to the forest is
no matter to those after it, since it changes no flag and no other waiter. -/

/-- All waiters of a list have gone on until they rest. -/
structure PolledAll (f : Forest) (ps : List Pending) (g : Forest) (qs : List Pending) : Prop where
  sameTree : SameTree f g
  ids : qs.map Pending.id = ps.map Pending.id
  resting : ∀ q ∈ qs, q.Resting g
  others : ∀ j, j ∉ ps.map Pending.id → g.waiters[j]? = f.waiters[j]?
  length_waiters : g.waiters.length = f.waiters.length
  isHeld_of : ∀ t, g.isHeld t = true → f.isHeld t = true
  holdersOf_add : ∀ t, g.holdersOf t + ps.countP (·.claims t) = f.holdersOf t + qs.countP (·.claims t)

/-- Where there are no waiters, nothing is done. -/
theorem PolledAll.nil : PolledAll f [] f [] where
  sameTree := .of_nodes_eq rfl
  ids := rfl
  resting _ h := by cases h
  others _ _ := rfl
  length_waiters := rfl
  isHeld_of _ h := h
  holdersOf_add _ := rfl

/-- Polling a list of waiters is polling the first one and then the rest. -/
theorem PolledAll.cons {h : Forest} {p q : Pending} {ps qs : List Pending}
    (hp : Polled f p g q) (hps : PolledAll g ps h qs) (hid : p.id ∉ ps.map Pending.id) :
    PolledAll f (p :: ps) h (q :: qs) where
  sameTree := hp.sameTree.trans hps.sameTree
  ids := by rw [List.map_cons, List.map_cons, hp.id_eq, hps.ids]
  resting q' hq' := by
    rcases List.mem_cons.mp hq' with rfl | hq'
    · -- the others have left it alone
      refine hp.resting.of_eq ?_ (hps.sameTree.isCancelled _)
      rw [hp.id_eq]
      exact hps.others _ hid
    · exact hps.resting q' hq'
  others j hj := by
    rw [List.map_cons, List.mem_cons, not_or] at hj
    rw [hps.others j hj.2, hp.others j hj.1]
  length_waiters := hps.length_waiters.trans hp.length_waiters
  isHeld_of t h := hp.isHeld_of t (hps.isHeld_of t h)
  holdersOf_add t := by
    have h₁ := hp.holdersOf_add t
    have h₂ := hps.holdersOf_add t
    rw [List.countP_cons, List.countP_cons]
    omega

/-- One who does nothing may be passed over. -/
theorem polled_of_not_isActive {p : Pending} (h : p.Ready f) (hactive : p.isActive = false) :
    Polled f p f p where
  sameTree := .of_nodes_eq rfl
  id_eq := rfl
  token_eq := rfl
  isDropped_eq := rfl
  resting := ⟨fun hup => absurd (hactive.symm.trans hup) Bool.false_ne_true, h.completed⟩
  others _ _ := rfl
  length_waiters := rfl
  isHeld_of _ h := h
  holdersOf_add _ := rfl

/-- What one waiter does leaves the others ready. -/
theorem ready_of_polled {p q p' : Pending} (hp : Polled f p g q) (h : p'.Ready f)
    (hne : p'.id ≠ p.id) : p'.Ready g where
  awake := by
    rw [hp.others _ hne, hp.sameTree.isCancelled]
    exact h.awake
  completed hcompleted := (hp.sameTree.isCancelled _).trans (h.completed hcompleted)

/-- **Waiters that are ready go on until all of them rest.** -/
theorem polledAll_pollAll {ps : List Pending} (hready : ∀ p ∈ ps, p.Ready f)
    (hids : (ps.map Pending.id).Nodup) (hheld : ∀ t, ps.countP (·.claims t) ≤ f.holdersOf t) :
    PolledAll f ps (pollAll f ps).1 (pollAll f ps).2 := by
  induction ps generalizing f with
  | nil => exact .nil
  | cons p ps ih =>
    rw [List.map_cons, List.nodup_cons] at hids
    have hp := hready p List.mem_cons_self
    -- whether the first waiter does anything or not, the rest goes on from where it leaves off
    have hrest {g : Forest} {q : Pending} (hpolled : Polled f p g q) :
        PolledAll f (p :: ps) (pollAll g ps).1 (q :: (pollAll g ps).2) := by
      refine .cons hpolled ?_ hids.1
      refine ih (fun p' hp' => ?_) hids.2 fun t => ?_
      · refine ready_of_polled hpolled (hready p' (List.mem_cons_of_mem _ hp')) ?_
        exact fun heq => hids.1 (heq ▸ List.mem_map_of_mem hp')
      · have hadd := hpolled.holdersOf_add t
        have hle := hheld t
        rw [List.countP_cons] at hle
        omega
    simp only [pollAll]
    cases hactive : p.isActive with
    | false => exact hrest (polled_of_not_isActive hp hactive)
    | true =>
      refine hrest (hp.polled hactive ?_)
      have hle := hheld p.token
      rw [List.countP_cons, if_pos (claims_iff.mpr ⟨hactive, rfl⟩)] at hle
      omega

/-! ## The books of a registry

The registry is the world outside the forest: all handles and waiters that there are. Its books are
right after any operations, whatever their order. -/

/-- A handle on the token is there, or a waiter for it whose wait is not over. -/
def Holds (r : Registry) (t : Token) : Prop :=
  some t ∈ r.handles ∨ ∃ p ∈ r.waiters, p.isActive = true ∧ p.token = t

/-- How many handles and waiters hold a token. -/
def holdings (r : Registry) (t : Token) : Nat :=
  r.handles.count (some t) + r.waiters.countP (·.claims t)

theorem holds_iff : r.Holds t ↔ 0 < r.holdings t := by
  rw [Holds, holdings, Nat.add_pos_iff_pos_or_pos, List.count_pos_iff, List.countP_pos_iff]
  simp only [claims_iff]

/-- The parent and the child that an operation makes kin. -/
def newKin (r : Registry) : Operation → List (Token × Token)
  | .child h =>
    match r.token? h with
    | some p => [(p, r.forest.nodes.length)]
    | none => []
  | _ => []

/-- Each token that operations make as a child, after its parent. -/
def kinships (r : Registry) : List Operation → List (Token × Token)
  | [] => []
  | op :: ops => r.newKin op ++ (r.step op).kinships ops

/-- Who is kin after one more operation is told by the operations before and by that one. -/
theorem kinships_concat (r : Registry) (ops : List Operation) (op : Operation) :
    r.kinships (ops ++ [op]) = r.kinships ops ++ (ops.foldl step r).newKin op := by
  induction ops generalizing r with
  | nil => simp [kinships]
  | cons first ops ih => rw [List.cons_append, kinships, ih, kinships, List.append_assoc]; rfl

/-- The books are right: a token is held by its handles and waiters and by nothing else, the waiters
stand in the forest in the order of the registry, and links tell who is kin. -/
structure Kept (r : Registry) (kin : List (Token × Token)) : Prop
    extends r.forest.Custody r.holdings kin where
  ids : r.waiters.map Pending.id = List.range r.forest.waiters.length

/-- What an operation makes of a registry. It does nothing if the handle or waiter is not there, or if
the waiter has nothing left to do. -/
inductive Effect (r : Registry) : Operation → Registry → Prop
  | nothing {op : Operation} (hkin : r.newKin op = [])
      (hcancel : ∀ h t, op = .cancel h → r.token? h ≠ some t) : Effect r op r
  | create : Effect r .create
      { r with forest := r.forest.create.2, handles := r.handles ++ [some r.forest.nodes.length] }
  | clone {h : Nat} {t : Token} (ht : r.token? h = some t) : Effect r (.clone h)
      { r with forest := r.forest.retain t, handles := r.handles ++ [some t] }
  | child {h : Nat} {p : Token} (hp : r.token? h = some p) : Effect r (.child h)
      { r with
        forest := (r.forest.child p).2, handles := r.handles ++ [some r.forest.nodes.length] }
  | cancel {h : Nat} {t : Token} (ht : r.token? h = some t) : Effect r (.cancel h)
      { r with forest := r.forest.cancel t }
  | drop {h : Nat} {t : Token} (ht : r.token? h = some t) : Effect r (.drop h)
      { r with forest := r.forest.release t, handles := r.handles.set h none }
  | wait {h : Nat} {t : Token} (ht : r.token? h = some t) : Effect r (.wait h)
      { r with
        forest := (r.forest.addWaiter t).2
        waiters := r.waiters ++
          [⟨r.forest.waiters.length, t, waitCall r.forest.waiters.length, false⟩] }
  | dropWaiter {i : Nat} {p : Pending} (hi : r.waiters[i]? = some p) (hactive : p.isActive = true) :
      Effect r (.dropWaiter i)
        { r with
          forest := (r.forest.release p.token).modifyWaiter p.id fun waiter =>
            { waiter with isListening := false }
          waiters := r.waiters.set i { p with isDropped := true } }

/-- The effects are those of the operations. -/
theorem effect_apply (r : Registry) (op : Operation) : Effect r op (r.apply op) := by
  cases op with
  | create => exact .create
  | clone h =>
    rw [Registry.apply]
    cases ht : r.token? h with
    | none => exact .nothing rfl fun _ _ h => by cases h
    | some t => exact .clone ht
  | child h =>
    rw [Registry.apply]
    cases hp : r.token? h with
    | none => exact .nothing (by rw [newKin, hp]) fun _ _ h => by cases h
    | some p => exact .child hp
  | cancel h =>
    rw [Registry.apply]
    cases ht : r.token? h with
    | none =>
      refine .nothing rfl fun h' t heq => ?_
      cases heq
      simp [ht]
    | some t => exact .cancel ht
  | drop h =>
    rw [Registry.apply]
    cases ht : r.token? h with
    | none => exact .nothing rfl fun _ _ h => by cases h
    | some t => exact .drop ht
  | wait h =>
    rw [Registry.apply]
    cases ht : r.token? h with
    | none => exact .nothing rfl fun _ _ h => by cases h
    | some t => exact .wait ht
  | dropWaiter i =>
    rw [Registry.apply]
    cases hi : r.waiters[i]? with
    | none => exact .nothing rfl fun _ _ h => by cases h
    | some p =>
      cases hactive : p.isActive with
      | true =>
        simp only [hactive, if_true]
        exact .dropWaiter hi hactive
      | false =>
        simp only [hactive, Bool.false_eq_true, if_false]
        exact .nothing rfl fun _ _ h => by cases h

theorem token?_eq_some_iff {h : Nat} : r.token? h = some t ↔ r.handles[h]? = some (some t) := by
  rw [token?, Option.join_eq_some_iff]

namespace Kept

variable (hr : r.Kept kin)
include hr

theorem isHeld_iff_holds : r.forest.isHeld t = true ↔ r.Holds t := by
  rw [hr.isHeld_iff_pos, holds_iff]

theorem isHeld_of_token? {h : Nat} (ht : r.token? h = some t) : r.forest.isHeld t = true :=
  hr.isHeld_iff_holds.mpr (.inl (List.mem_of_getElem? (token?_eq_some_iff.mp ht)))

theorem isHeld_of_isActive {p : Pending} (hp : p ∈ r.waiters) (hactive : p.isActive = true) :
    r.forest.isHeld p.token = true :=
  hr.isHeld_iff_holds.mpr (.inr ⟨p, hp, hactive, rfl⟩)

/-- **An operation keeps the books right**, and adds to the kin what it makes kin. -/
theorem of_effect (heffect : Effect r op r') : r'.Kept (kin ++ r.newKin op) := by
  have hsame {r' : Registry} {op : Operation} (hkin : r.newKin op = []) (h : r'.Kept kin) :
      r'.Kept (kin ++ r.newKin op) := by
    rwa [hkin, List.append_nil]
  -- whoever holds a handle makes its token held
  have hpos {h : Nat} {t : Token} (ht : r.token? h = some t) : 0 < r.holdings t :=
    hr.isHeld_iff_pos.mp (hr.isHeld_of_token? ht)
  cases heffect with
  | nothing hkin => exact hsame hkin hr
  | create =>
    refine hsame rfl ⟨hr.toCustody.create fun u => ?_, hr.ids⟩
    simp only [holdings, count_concat]
    omega
  | @clone h t ht =>
    refine hsame rfl ⟨hr.toCustody.retain (hpos ht) fun u => ?_, hr.ids⟩
    simp only [holdings, count_concat]
    omega
  | @child h p hp =>
    rw [newKin, hp]
    refine ⟨hr.toCustody.child (hpos hp) fun u => ?_, ?_⟩
    · simp only [holdings, count_concat]
      omega
    · rw [length_waiters_child hr.toWellFormed]
      exact hr.ids
  | @cancel h t ht =>
    refine hsame rfl ⟨hr.toCustody.cancel t, ?_⟩
    rw [length_waiters_cancel hr.toWellFormed]
    exact hr.ids
  | @drop h t ht =>
    refine hsame rfl ⟨hr.toCustody.release t fun u => ?_, hr.ids⟩
    have hset := count_set (token?_eq_some_iff.mp ht) none u
    simp only [reduceCtorEq, if_false] at hset
    simp only [holdings]
    omega
  | @wait h t ht =>
    refine hsame rfl ⟨(hr.toCustody.retain (hpos ht) fun u => ?_).of_nodes_eq rfl, ?_⟩
    · simp only [holdings, List.countP_append, List.countP_singleton, ← Nat.add_assoc]
      by_cases hu : u = t
      · simp [hu, claims, isActive, isCompleted, waitCall]
      · simp [hu, Ne.symm hu, claims]
    · show (r.waiters ++ [_]).map Pending.id = List.range (r.forest.waiters ++ [_]).length
      rw [List.map_append, hr.ids, List.length_append, List.length_singleton, List.range_succ]
      rfl
  -- who waits has a claim on the token; it ends when the waiter is dropped
  | @dropWaiter i p hi hactive =>
    obtain ⟨hlt, hp⟩ := List.getElem?_eq_some_iff.mp hi
    refine hsame rfl ⟨(hr.toCustody.release p.token fun u => ?_).of_nodes_eq rfl, ?_⟩
    · have hcount : 0 < r.waiters.countP (·.claims p.token) :=
        List.countP_pos_iff.mpr ⟨p, List.mem_of_getElem? hi, claims_iff.mpr ⟨hactive, rfl⟩⟩
      simp only [holdings]
      rw [List.countP_set hlt, hp]
      -- the claim is counted once, and then no more
      by_cases hu : u = p.token
      · subst hu
        have hgone : { p with isDropped := true }.claims p.token = false := by
          simp [claims, isActive]
        rw [hgone, claims_iff.mpr ⟨hactive, rfl⟩]
        simp only [if_true, Bool.false_eq_true, if_false]
        omega
      · simp [hu, Ne.symm hu, claims]
    · show (r.waiters.set i _).map Pending.id = List.range (r.forest.waiters.modify p.id _).length
      rw [List.length_modify, ← hr.ids, List.map_set]
      subst hp
      have hid : (r.waiters.map Pending.id).get ⟨i, by simpa using hlt⟩ = r.waiters[i].id :=
        List.getElem_map ..
      exact (congrArg _ hid.symm).trans (List.set_getElem_self _)

/-- A waiter has the same number in the registry and in the forest. -/
theorem id_eq {i : Nat} {p : Pending} (hp : r.waiters[i]? = some p) : p.id = i := by
  have hid : (r.waiters.map Pending.id)[i]? = some p.id := by
    rw [List.getElem?_map, hp]
    rfl
  rw [hr.ids] at hid
  obtain ⟨_, hi⟩ := List.getElem?_eq_some_iff.mp hid
  rw [List.getElem_range] at hi
  exact hi.symm

/-- **An operation leaves every waiter that rests ready.** -/
theorem ready_of_effect (hrest : ∀ p ∈ r.waiters, p.Resting r.forest) (heffect : Effect r op r') :
    ∀ p ∈ r'.waiters, p.Ready r'.forest := by
  have hwf := hr.toWellFormed
  intro p hp
  cases heffect with
  | nothing => exact (hrest p hp).ready_of_eq (fun _ => rfl) rfl
  | create => exact (hrest p hp).ready_of_eq (fun _ => rfl) (isCancelled_create _ _)
  | clone => exact (hrest p hp).ready_of_eq (fun _ => rfl) ((sameTree_retain _ _).isCancelled _)
  | drop => exact (hrest p hp).ready_of_eq (fun _ => rfl) ((sameTree_release _ _).isCancelled _)
  | @child h p₀ hp₀ =>
    -- a waiter waits for an older token, whose flag stays as it is
    have hold {u : Token} (hu : u < r.forest.nodes.length) :
        (r.forest.child p₀).2.isCancelled u = r.forest.isCancelled u := by
      rw [isCancelled_child hwf, if_neg (Nat.ne_of_lt hu)]
    refine (hrest p hp).ready (fun hactive => ?_) fun hup => ?_
    · have hlt := lt_length_of_isHeld (hr.isHeld_of_isActive hp hactive)
      obtain ⟨-, hw, hdown⟩ := (hrest p hp).asleep hactive
      rw [hold hlt, hdown]
      exact getElem?_waiters_child hwf hw hlt
    · exact (hold (lt_length_of_isCancelled hup)).trans hup
  | @cancel h t₀ ht =>
    refine (hrest p hp).ready (fun hactive => ?_) fun hup =>
      isCancelled_cancel_of hwf.unlocked hup
    obtain ⟨-, hw, hdown⟩ := (hrest p hp).asleep hactive
    obtain ⟨hreached, hmissed⟩ := getElem?_waiters_cancel (r := t₀) hwf.unlocked hw
    have hflag := isCancelled_cancel_iff (r := t₀) (t := p.token) hwf.unlocked
    by_cases hreaches : Reaches r.forest t₀ p.token
    · rw [hreached hreaches, hflag.mpr (.inr hreaches)]
      rfl
    · have hstill : (r.forest.cancel t₀).isCancelled p.token = false := by
        rw [← Bool.not_eq_true, hflag, hdown]
        simpa using hreaches
      rw [hmissed hreaches, hstill]
  | @wait h t₀ ht =>
    rcases List.mem_append.mp hp with hp | hp
    · refine (hrest p hp).ready_of_eq (fun hactive => ?_) ((sameTree_retain _ _).isCancelled _)
      obtain ⟨-, hw, -⟩ := (hrest p hp).asleep hactive
      exact List.getElem?_append_left (List.getElem?_eq_some_iff.mp hw).1
    · -- the new waiter begins to listen
      obtain rfl := List.mem_singleton.mp hp
      refine ⟨fun _ => .inl ⟨rfl, ⟨t₀, false, false⟩, ?_, rfl⟩, fun h => ?_⟩
      · exact List.getElem?_concat_length
      · simp [isCompleted, waitCall] at h
  | @dropWaiter i q hi hactive =>
    obtain ⟨j, hj⟩ := List.mem_iff_getElem?.mp hp
    rw [List.getElem?_set] at hj
    split at hj
    · -- the waiter that is dropped does nothing any more
      split at hj
      · obtain rfl := Option.some.inj hj
        refine ⟨fun h => by simp [isActive] at h, fun h => ?_⟩
        have hcompleted : q.isCompleted = true := h
        simp [isActive, hcompleted] at hactive
      · cases hj
    · rename_i hij
      refine (hrest p (List.mem_of_getElem? hj)).ready_of_eq (fun _ => ?_)
        ((sameTree_release _ _).isCancelled _)
      rw [getElem?_waiters_modifyWaiter, if_neg (by rwa [hr.id_eq hi, hr.id_eq hj])]
      rfl

/-- Polling the registry is polling all of its waiters. -/
theorem polledAll (hready : ∀ p ∈ r.waiters, p.Ready r.forest) :
    PolledAll r.forest r.waiters r.poll.forest r.poll.waiters := by
  refine polledAll_pollAll hready ?_ fun t => ?_
  · rw [hr.ids]
    exact List.nodup_range
  · rw [hr.holdersOf_eq, holdings]
    exact Nat.le_add_left _ _

/-- **Waiters that are ready go on, and the books stay right.** -/
theorem poll (hready : ∀ p ∈ r.waiters, p.Ready r.forest) :
    r.poll.Kept kin ∧ ∀ p ∈ r.poll.waiters, p.Resting r.poll.forest := by
  have hpolled := hr.polledAll hready
  refine ⟨⟨⟨hr.toKindred.of_sameTree hpolled.sameTree hpolled.isHeld_of, fun t => ?_⟩, ?_⟩,
    hpolled.resting⟩
  · have hadd := hpolled.holdersOf_add t
    rw [hr.holdersOf_eq, holdings] at hadd
    show _ = r.handles.count (some t) + r.poll.waiters.countP (·.claims t)
    omega
  · rw [hpolled.ids, hpolled.length_waiters, hr.ids]

/-- One operation, and then every waiter goes on. -/
theorem step (hrest : ∀ p ∈ r.waiters, p.Resting r.forest) (op : Operation) :
    (r.step op).Kept (kin ++ r.newKin op) ∧
      ∀ p ∈ (r.step op).waiters, p.Resting (r.step op).forest :=
  (hr.of_effect (r.effect_apply op)).poll (hr.ready_of_effect hrest (r.effect_apply op))

end Kept

theorem kept_empty : Kept {} [] where
  toKindred := .empty
  holdersOf_eq _ := rfl
  ids := rfl

/-- **Whatever is done to a registry, its books are right and its waiters rest.** -/
theorem kept_foldl_step (ops : List Operation) :
    (ops.foldl Registry.step {}).Kept (kinships {} ops) ∧
      ∀ p ∈ (ops.foldl Registry.step {}).waiters, p.Resting (ops.foldl Registry.step {}).forest := by
  induction ops using List.reverseRecOn with
  | nil => exact ⟨kept_empty, fun p hp => by cases hp⟩
  | append_singleton ops op ih =>
    rw [kinships_concat, List.foldl_append]
    exact ih.1.step ih.2 op

/-! ## The flags after an operation

Only a cancellation raises flags, and it raises those of a line: the token itself and what is kin to
it through tokens that are held. -/

namespace Kept

variable (hr : r.Kept kin)
include hr

/-- Waiters that go on raise no flags and take none down. -/
theorem isCancelled_step (hrest : ∀ p ∈ r.waiters, p.Resting r.forest) (op : Operation)
    (u : Token) : (r.step op).forest.isCancelled u = (r.apply op).forest.isCancelled u :=
  ((hr.of_effect (r.effect_apply op)).polledAll
    (hr.ready_of_effect hrest (r.effect_apply op))).sameTree.isCancelled u

/-- The line of a token, with the holders that the registry knows of. -/
theorem line_iff : Line kin (r.forest.isHeld · = true) t u ↔ Line kin r.Holds t u :=
  ⟨fun h => h.congr fun _ => hr.isHeld_iff_holds.mp, fun h => h.congr fun _ =>
    hr.isHeld_iff_holds.mpr⟩

/-- **Flags are raised by cancelling alone**, and then those of the line. -/
theorem isCancelled_iff_of_effect (heffect : Effect r op r') (hu : u < r.forest.nodes.length) :
    r'.forest.isCancelled u = true ↔ r.forest.isCancelled u = true ∨
      ∃ h t, op = .cancel h ∧ r.token? h = some t ∧ Line kin r.Holds t u := by
  -- an operation that cancels nothing leaves the flags of the old tokens
  have hother (hsame : r'.forest.isCancelled u = r.forest.isCancelled u)
      (hop : ∀ h t, op = .cancel h → r.token? h ≠ some t) :
      r'.forest.isCancelled u = true ↔ r.forest.isCancelled u = true ∨
        ∃ h t, op = .cancel h ∧ r.token? h = some t ∧ Line kin r.Holds t u := by
    rw [hsame]
    exact (or_iff_left fun ⟨h, t, heq, ht, _⟩ => hop h t heq ht).symm
  cases heffect with
  | nothing _ hcancel => exact hother rfl hcancel
  | create => exact hother (isCancelled_create _ _) fun _ _ h => by cases h
  | clone => exact hother ((sameTree_retain _ _).isCancelled u) fun _ _ h => by cases h
  | child =>
    refine hother ?_ fun _ _ h => by cases h
    exact (isCancelled_child hr.toWellFormed).trans (if_neg (Nat.ne_of_lt hu))
  | @cancel h t₀ ht =>
    rw [hr.toKindred.isCancelled_cancel_iff (hr.isHeld_of_token? ht), hr.line_iff]
    refine or_congr_right ⟨fun hline => ⟨h, t₀, rfl, ht, hline⟩, ?_⟩
    rintro ⟨h', t, heq, ht', hline⟩
    cases heq
    obtain rfl := Option.some.inj (ht.symm.trans ht')
    exact hline
  | drop => exact hother ((sameTree_release _ _).isCancelled u) fun _ _ h => by cases h
  | wait => exact hother ((sameTree_retain _ _).isCancelled u) fun _ _ h => by cases h
  | dropWaiter => exact hother ((sameTree_release _ _).isCancelled u) fun _ _ h => by cases h

end Kept

end Registry

end EdgeInclude.Cancellation
