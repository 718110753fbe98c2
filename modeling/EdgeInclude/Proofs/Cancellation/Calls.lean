import EdgeInclude.Cancellation.Forest
import EdgeInclude.Proofs.Lists

/-!
# Calls come to their end

`Forest.run` gives a call as much fuel as its weight. Every action lowers the weight, whatever it
does to the forest, so the fuel never runs out, and a call stops only where it is at its end or held
up by a lock or a missing notification.

* **`weight_lt_of_perform`**: every action lowers the weight.
* **`run_cons`**: a call is carried out action by action; no fuel is left in the equation.
* **`run_invariant`**: what each action keeps holds where the call stops.
* **`run_stops`**: where that is.
-/

namespace EdgeInclude.Cancellation.Forest

variable {f g : Forest} {action : Action} {call next : List Action} {t u : Token} {node : Node}
variable {change : Node → Node}

/-! ## What the parts of the weight are made of

The weight counts flags that are down, links, notifications and actions. Each part has a lemma for
each change that leaves it alone or lowers it. -/

/-- Flags that are left alone count the same. -/
theorem lowered_modifyNode (h : ∀ node, (change node).isCancelled = node.isCancelled) :
    (f.modifyNode t change).lowered = f.lowered := by
  have hmap : (f.nodes.modify t change).map Node.isCancelled = f.nodes.map Node.isCancelled :=
    map_modify_of_forall h f.nodes t
  have hcount (nodes : List Node) :
      nodes.countP (fun node => !node.isCancelled) = (nodes.map Node.isCancelled).countP (!·) := by
    rw [List.countP_map]
    rfl
  rw [lowered, lowered, modifyNode, hcount, hmap, ← hcount]

/-- Raising a flag that is down leaves one fewer down. -/
theorem lowered_raise (hn : f.nodes[t]? = some node) (hc : node.isCancelled = false) :
    (f.modifyNode t fun node => { node with isCancelled := true }).lowered + 1 = f.lowered := by
  obtain ⟨before, after, hsplit, hchange⟩ := exists_modify_split hn
  rw [lowered, lowered, modifyNode, hchange, hsplit]
  simp [hc]
  omega

/-- Links stay as they are in a change that leaves them alone. -/
theorem links_modifyNode (h : ∀ node, (change node).children = node.children) :
    (f.modifyNode t change).links = f.links := by
  rw [links, links, modifyNode]
  cases hn : f.nodes[t]? with
  | none => rw [List.modify_eq_self (List.getElem?_eq_none_iff.mp hn)]
  | some node =>
    obtain ⟨before, after, hsplit, hchange⟩ := exists_modify_split hn
    rw [hchange, hsplit, total_append, total_append, total_cons, total_cons, h]

/-- A change that adds at most one link to the links of a token adds at most one. -/
theorem links_modifyNode_le
    (h : ∀ node, (change node).children.length ≤ node.children.length + 1) :
    (f.modifyNode t change).links ≤ f.links + 1 := by
  rw [links, links, modifyNode]
  cases hn : f.nodes[t]? with
  | none =>
    rw [List.modify_eq_self (List.getElem?_eq_none_iff.mp hn)]
    exact Nat.le_succ _
  | some node =>
    obtain ⟨before, after, hsplit, hchange⟩ := exists_modify_split hn
    have := h node
    rw [hchange, hsplit, total_append, total_append, total_cons, total_cons]
    omega

/-- The links that are taken are those of the token. -/
theorem links_takeChildren (hn : f.nodes[t]? = some node) :
    (f.modifyNode t fun node => { node with children := [] }).links + node.children.length =
      f.links := by
  obtain ⟨before, after, hsplit, hchange⟩ := exists_modify_split hn
  rw [links, links, modifyNode, hchange, hsplit, total_append, total_append, total_cons, total_cons,
    List.length_nil]
  omega

/-- A waiter who is no longer notified is not counted any more. -/
theorem notified_modifyWaiter_le {w : WaiterId} {change : Waiter → Waiter}
    (h : ∀ waiter, (change waiter).isNotified = true → waiter.isNotified = true) :
    (f.modifyWaiter w change).notified ≤ f.notified := by
  rw [notified, notified, modifyWaiter]
  cases hw : f.waiters[w]? with
  | none =>
    have hsame : f.waiters.modify w change = f.waiters :=
      List.modify_eq_self (List.getElem?_eq_none_iff.mp hw)
    exact Nat.le_of_eq (by rw [hsame])
  | some waiter =>
    obtain ⟨before, after, hsplit, hchange⟩ := exists_modify_split hw
    have himp := h waiter
    rw [hchange, hsplit]
    simp only [List.countP_append, List.countP_cons]
    cases hc : (change waiter).isNotified
    · simp
    · simp [himp hc]

/-- A waiter who wakes up has seen the notification. -/
theorem notified_wake {w : WaiterId} {waiter : Waiter} (hw : f.waiters[w]? = some waiter)
    (hn : waiter.isNotified = true) :
    (f.modifyWaiter w fun waiter =>
      { waiter with isListening := false, isNotified := false }).notified + 1 = f.notified := by
  obtain ⟨before, after, hsplit, hchange⟩ := exists_modify_split hw
  rw [notified, notified, modifyWaiter, hchange, hsplit]
  simp [hn]
  omega

/-- No action makes a waiter or drops one. -/
theorem length_waiters_of_perform (h : f.perform action = some (g, next)) :
    g.waiters.length = f.waiters.length := by
  cases action <;> simp only [perform] at h <;> (repeat' split at h) <;>
    simp only [Option.some.injEq, Prod.mk.injEq, reduceCtorEq] at h <;>
    obtain ⟨rfl, rfl⟩ := h <;> simp [modifyNode, modifyWaiter, retain, release]

theorem actionWeight_eq (h : g.waiters.length = f.waiters.length) :
    g.actionWeight = f.actionWeight := by
  funext action
  cases action <;> simp only [actionWeight, h]

/-! ## Every action lowers the weight

An action may lead to others, but it pays for them: with a flag that it raises, with links that it
takes, or with a notification that it uses up. -/

/-- The weight of two calls one after the other. -/
theorem weight_append (f : Forest) (call later : List Action) :
    f.weight (call ++ later) = f.weight call + total f.actionWeight later := by
  rw [weight, weight, total_append, ← Nat.add_assoc]

/-- A change to a token that leaves its flag and its links alone has no weight. -/
theorem weight_modifyNode (hc : ∀ node, (change node).isCancelled = node.isCancelled)
    (hl : ∀ node, (change node).children = node.children) :
    (f.modifyNode t change).weight call = f.weight call := by
  have hwaiters : (f.modifyNode t change).waiters = f.waiters := rfl
  have hrest : (f.modifyNode t change).actionWeight = f.actionWeight :=
    actionWeight_eq (by rw [hwaiters])
  rw [weight, weight, lowered_modifyNode hc, links_modifyNode hl, hrest, notified, notified,
    hwaiters]

/-- A change to a waiter weighs what it does to the notifications. -/
theorem weight_modifyWaiter (f : Forest) (w : WaiterId) (change : Waiter → Waiter)
    (call : List Action) :
    (f.modifyWaiter w change).weight call + 4 * f.notified =
      f.weight call + 4 * (f.modifyWaiter w change).notified := by
  have hlength : (f.modifyWaiter w change).waiters.length = f.waiters.length :=
    List.length_modify ..
  have hlowered : (f.modifyWaiter w change).lowered = f.lowered := rfl
  have hlinks : (f.modifyWaiter w change).links = f.links := rfl
  rw [weight, weight, hlength, hlowered, hlinks, actionWeight_eq hlength]
  omega

/-- One flag fewer is down: that pays for the notification and for taking the links. -/
theorem weight_raise_lt (hn : f.nodes[t]? = some node) (hc : node.isCancelled = false) :
    (f.modifyNode t fun node => { node with isCancelled := true }).weight
      [.notify t, .takeChildren t] < f.weight [.raise t] := by
  have hlowered := lowered_raise hn hc
  have hlinks : (f.modifyNode t fun node => { node with isCancelled := true }).links = f.links :=
    links_modifyNode fun _ => rfl
  rw [weight, weight, ← hlowered, hlinks, Nat.mul_add]
  simp [actionWeight, modifyNode, notified]
  omega

/-- A notification pays for all waiters, and reaches at most all of them. -/
theorem weight_notify_lt (f : Forest) (t : Token) :
    weight { f with waiters := f.waiters.map fun w =>
        if w.token = t ∧ w.isListening then { w with isNotified := true } else w } [] <
      f.weight [.notify t] := by
  have hle : (f.waiters.map fun w =>
      if w.token = t ∧ w.isListening then { w with isNotified := true } else w).countP
        (fun w => w.isNotified) ≤ f.waiters.length := by
    refine Nat.le_trans List.countP_le_length ?_
    exact Nat.le_of_eq (List.length_map _)
  simp only [weight, lowered, links, notified, List.length_map, total_nil, total_cons,
    actionWeight]
  omega

/-- A link that is taken pays for following it. -/
theorem weight_takeChildren_lt (hn : f.nodes[t]? = some node) :
    (f.modifyNode t fun node => { node with children := [] }).weight (node.children.map .follow) <
      f.weight [.takeChildren t] := by
  have hlinks := links_takeChildren hn
  have hlowered : (f.modifyNode t fun node => { node with children := [] }).lowered = f.lowered :=
    lowered_modifyNode fun _ => rfl
  have hsum (children : List Token) :
      total f.actionWeight (children.map .follow) = 3 * children.length := by
    induction children with
    | nil => rfl
    | cons child children ih =>
      rw [List.map_cons, total_cons, ih, List.length_cons, actionWeight]
      omega
  have hwaiters : (f.modifyNode t fun node => { node with children := [] }).waiters = f.waiters :=
    rfl
  have hrest : (f.modifyNode t fun node => { node with children := [] }).actionWeight =
      f.actionWeight := actionWeight_eq (by rw [hwaiters])
  rw [weight, weight, hlowered, hrest, hsum, notified, notified, hwaiters, ← hlinks]
  simp only [actionWeight, total_cons, total_nil]
  omega

/-- A link in the making pays for itself. -/
theorem weight_link_lt (f : Forest) (parent child : Token) :
    (f.modifyNode parent fun node =>
      { node with
        children := node.children.filter f.isHeld ++ [child], isLocked := false }).weight [] <
      f.weight [.link parent child] := by
  have hlinks : (f.modifyNode parent fun node =>
      { node with
        children := node.children.filter f.isHeld ++ [child], isLocked := false }).links ≤
      f.links + 1 := by
    refine links_modifyNode_le fun node => ?_
    have := List.length_filter_le f.isHeld node.children
    simpa using this
  have hlowered : (f.modifyNode parent fun node =>
      { node with
        children := node.children.filter f.isHeld ++ [child], isLocked := false }).lowered =
      f.lowered := lowered_modifyNode fun _ => rfl
  rw [weight, weight, hlowered]
  simp only [actionWeight, total_cons, total_nil]
  simp only [modifyNode, notified] at hlinks ⊢
  omega

/-- What a waiter does pays for what it does next, and for what it has seen. -/
theorem weight_wait_lt {w : WaiterId}
    (haction : action = .listen w ∨ action = .check w ∨ action = .sleep w)
    (h : f.perform action = some (g, next)) : g.weight next < f.weight [action] := by
  have hchange (change : Waiter → Waiter) (h : ∀ waiter, (change waiter).isNotified = true →
      waiter.isNotified = true) (next : List Action) :
      (f.modifyWaiter w change).weight next ≤ f.weight next := by
    have hweight := weight_modifyWaiter f w change next
    have hnotified := notified_modifyWaiter_le (f := f) (w := w) h
    omega
  have hnext (action' : Action) (hlt : f.actionWeight action' < f.actionWeight action) :
      f.weight [action'] < f.weight [action] := by
    simp only [weight, total_cons, total_nil]
    omega
  have hnil : f.weight [] < f.weight [action] := by
    rcases haction with rfl | rfl | rfl <;> simp [weight, actionWeight]
  rcases haction with rfl | rfl | rfl
  · obtain ⟨rfl, rfl⟩ := by simpa [perform] using h
    exact Nat.lt_of_le_of_lt (hchange _ (fun _ hn => by simp at hn) _)
      (hnext _ (by simp [actionWeight]))
  · simp only [perform] at h
    split at h
    · obtain ⟨rfl, rfl⟩ := by simpa using h
      exact hnil
    · split at h
      · simp only [Option.some.injEq, Prod.mk.injEq] at h
        obtain ⟨rfl, rfl⟩ := h
        refine Nat.lt_of_le_of_lt (hchange (fun waiter => { waiter with isListening := false })
          (fun _ hn => hn) _) ?_
        exact hnext (.release _) (by simp [actionWeight])
      · obtain ⟨rfl, rfl⟩ := by simpa using h
        exact hnext _ (by simp [actionWeight])
  · simp only [perform] at h
    split at h
    · obtain ⟨rfl, rfl⟩ := by simpa using h
      exact hnil
    · rename_i waiter hw
      split at h
      · rename_i hn
        obtain ⟨rfl, rfl⟩ := by simpa using h
        -- the waiter has seen its notification, which pays for beginning afresh
        have hweight := weight_modifyWaiter f w (fun waiter =>
          { waiter with isListening := false, isNotified := false }) [.listen w]
        have hnotified := notified_wake hw hn
        have hlisten : f.weight [.listen w] = f.weight [.sleep w] + 2 := by
          simp [weight, actionWeight]
        omega
      · cases h

/-- **An action pays for what it leads to.** The weight of the forest after an action and of the
actions that come next is below that of the forest before it and of the action. -/
theorem weight_lt_of_perform_single (h : f.perform action = some (g, next)) :
    g.weight next < f.weight [action] := by
  -- an action that leads to no other uses up its own weight
  have hnil (action : Action) (ha : 0 < f.actionWeight action) :
      f.weight [] < f.weight [action] := by
    simp only [weight, total_cons, total_nil]
    omega
  cases action with
  | raise t =>
    simp only [perform] at h
    split at h
    · obtain ⟨rfl, rfl⟩ := by simpa using h
      exact hnil _ (by simp [actionWeight])
    · rename_i node hn
      split at h <;> obtain ⟨rfl, rfl⟩ := by simpa using h
      · exact hnil _ (by simp [actionWeight])
      · rename_i hc
        exact weight_raise_lt hn (by simpa using hc)
  | notify t =>
    obtain ⟨rfl, rfl⟩ := by simpa [perform] using h
    exact weight_notify_lt f t
  | takeChildren t =>
    simp only [perform] at h
    split at h
    · obtain ⟨rfl, rfl⟩ := by simpa using h
      exact hnil _ (by simp [actionWeight])
    · rename_i node hn
      split at h
      · cases h
      · obtain ⟨rfl, rfl⟩ := by simpa using h
        exact weight_takeChildren_lt hn
  | follow t =>
    simp only [perform] at h
    split at h <;> obtain ⟨rfl, rfl⟩ := by simpa using h
    · refine Nat.lt_of_le_of_lt (Nat.le_of_eq (weight_modifyNode (fun _ => rfl) fun _ => rfl)) ?_
      simp [weight, actionWeight]
    · exact hnil _ (by simp [actionWeight])
  | release t =>
    obtain ⟨rfl, rfl⟩ := by simpa [perform] using h
    refine Nat.lt_of_le_of_lt (Nat.le_of_eq (weight_modifyNode (fun _ => rfl) fun _ => rfl)) ?_
    exact hnil _ (by simp [actionWeight])
  | lock t =>
    simp only [perform] at h
    split at h
    · cases h
    · obtain ⟨rfl, rfl⟩ := by simpa using h
      refine Nat.lt_of_le_of_lt (Nat.le_of_eq (weight_modifyNode (fun _ => rfl) fun _ => rfl)) ?_
      exact hnil _ (by simp [actionWeight])
  | attach parent child =>
    simp only [perform] at h
    split at h <;> obtain ⟨rfl, rfl⟩ := by simpa using h
    · simp [weight, actionWeight]
    · simp [weight, actionWeight]
  | link parent child =>
    obtain ⟨rfl, rfl⟩ := by simpa [perform] using h
    exact weight_link_lt f parent child
  | unlock t =>
    obtain ⟨rfl, rfl⟩ := by simpa [perform] using h
    refine Nat.lt_of_le_of_lt (Nat.le_of_eq (weight_modifyNode (fun _ => rfl) fun _ => rfl)) ?_
    exact hnil _ (by simp [actionWeight])
  | listen w => exact weight_wait_lt (.inl rfl) h
  | check w => exact weight_wait_lt (.inr (.inl rfl)) h
  | sleep w => exact weight_wait_lt (.inr (.inr rfl)) h

/-- Every action lowers the weight of its call. -/
theorem weight_lt_of_perform (h : f.perform action = some (g, next)) (call : List Action) :
    g.weight (next ++ call) < f.weight (action :: call) := by
  have hlt := weight_lt_of_perform_single h
  rw [← List.singleton_append, weight_append, weight_append,
    actionWeight_eq (length_waiters_of_perform h)]
  omega

/-! ## Calls without fuel

Since the weight bounds the number of actions, the fuel never runs out, and calls can be read as if
there were none. -/

/-- As much fuel as the weight is as good as any that is more. -/
theorem runFor_eq_runFor {fuel fuel' : Nat} (h : f.weight call ≤ fuel) (h' : f.weight call ≤ fuel') :
    runFor fuel f call = runFor fuel' f call := by
  induction fuel generalizing fuel' f call with
  | zero =>
    cases call with
    | nil => simp only [runFor]
    | cons action call =>
      -- a call that has something to do weighs something
      have : 0 < f.actionWeight action := by cases action <;> simp [actionWeight]
      simp [weight] at h
      omega
  -- after the first action both have fuel for the rest, which weighs less
  | succ fuel ih =>
    cases call with
    | nil => simp only [runFor]
    | cons action call =>
      cases fuel' with
      | zero =>
        have : 0 < f.actionWeight action := by cases action <;> simp [actionWeight]
        simp [weight] at h'
        omega
      | succ fuel' =>
        cases hp : f.perform action with
        | none => simp only [runFor, hp]
        | some result =>
          obtain ⟨g, next⟩ := result
          have hlt := weight_lt_of_perform hp call
          simp only [runFor, hp]
          exact ih (by omega) (by omega)

@[simp]
theorem run_nil (f : Forest) : f.run [] = (f, []) := by
  simp only [run, runFor]

/-- **A call is carried out action by action**, until it is held up. -/
theorem run_cons (f : Forest) (action : Action) (call : List Action) :
    f.run (action :: call) = match f.perform action with
      | none => (f, action :: call)
      | some (g, next) => g.run (next ++ call) := by
  rw [run, runFor_eq_runFor (Nat.le_refl _) (Nat.le_succ _)]
  cases hp : f.perform action with
  | none => simp only [runFor, hp]
  | some result =>
    obtain ⟨g, next⟩ := result
    simp only [runFor, hp, run]
    have hlt := weight_lt_of_perform hp call
    exact runFor_eq_runFor (Nat.le_of_lt hlt) (Nat.le_refl _)

theorem run_cons_of_perform (h : f.perform action = some (g, next)) :
    f.run (action :: call) = g.run (next ++ call) := by
  rw [run_cons, h]

/-- What is left of a call is nothing, or an action that is held up. -/
theorem run_stops (f : Forest) (call : List Action) :
    (f.run call).2 = [] ∨
      ∃ action rest, (f.run call).2 = action :: rest ∧ (f.run call).1.perform action = none := by
  -- the induction is on the weight of the call, which every action lowers
  induction hw : f.weight call using Nat.strongRecOn generalizing f call with
  | ind weight ih =>
    cases call with
    | nil => exact .inl (by rw [run_nil])
    | cons action call =>
      rw [run_cons]
      cases hp : f.perform action with
      | none => exact .inr ⟨action, call, rfl, hp⟩
      | some result =>
        obtain ⟨g, next⟩ := result
        exact ih _ (hw ▸ weight_lt_of_perform hp call) g (next ++ call) rfl

/-- **What every action keeps holds where the call stops.** -/
theorem run_invariant {P : Forest → List Action → Prop}
    (hperform : ∀ (f g : Forest) (action : Action) (next call : List Action),
      P f (action :: call) → f.perform action = some (g, next) → P g (next ++ call))
    (h : P f call) : P (f.run call).1 (f.run call).2 := by
  induction hw : f.weight call using Nat.strongRecOn generalizing f call with
  | ind weight ih =>
    cases call with
    | nil => rwa [run_nil]
    | cons action call =>
      rw [run_cons]
      cases hp : f.perform action with
      | none => exact h
      | some result =>
        obtain ⟨g, next⟩ := result
        exact ih _ (hw ▸ weight_lt_of_perform hp call) (hperform f g action next call h hp) rfl

end EdgeInclude.Cancellation.Forest
