import EdgeInclude.Proofs.Cancellation.Custody

/-!
# What one action does

Calls that are woven together do one action after the other, each on the forest that the others have
left. So there is nothing to say of a call as a whole, only of each of its actions.

* **`Performed`**: what an action makes of a forest, and what it leads to. `performed_of_perform` reads
  it off.
* For each view of a forest, what an action does to it: flags, links, locks, holders, and the waiters.
-/

namespace EdgeInclude.Cancellation

/-- Locks the links of the token. -/
def Action.locks (p : Token) : Action → Bool
  | .lock q => q = p
  | _ => false

/-- Waits for the links of the token to be locked. -/
def Action.attaches (p : Token) : Action → Bool
  | .attach q _ => q = p
  | _ => false

/-- Unlocks the links of the token. -/
def Action.unlocks (p : Token) : Action → Bool
  | .link q _ | .unlock q => q = p
  | _ => false

/-- Sees to it that the child is cancelled with its parent. -/
def Action.minds (p c : Token) : Action → Bool
  | .attach q d | .link q d => q = p ∧ d = c
  | .follow d | .raise d => d = c
  | _ => false

/-- Is part of a wait. -/
def Action.attends (w : WaiterId) : Action → Bool
  | .listen v | .check v | .sleep v => v = w
  | _ => false

theorem Action.attends_check (w : WaiterId) : (Action.check w).attends w = true := decide_eq_true rfl

theorem Action.attends_sleep (w : WaiterId) : (Action.sleep w).attends w = true := decide_eq_true rfl

/-- Where nobody is to lock anything, nobody is to lock this. -/
theorem Action.countP_locks_eq_zero {l : List Action} {p : Token} (hl : ∀ q, .lock q ∉ l) :
    l.countP (·.locks p) = 0 := by
  refine List.countP_eq_zero.mpr fun a ha => ?_
  cases a with
  | lock q => exact absurd ha (hl q)
  | _ => exact Bool.false_ne_true

/-- Holds the token until it is carried out. Each waiter holds the token that stands in its place. -/
def Action.claims (waitedFor : List Token) (t : Token) : Action → Nat
  | .release u => if u = t then 1 else 0
  | .listen w | .check w | .sleep w => if waitedFor[w]? = some t then 1 else 0
  | _ => 0

theorem Waiter.token_wake (w : Waiter) : w.wake.token = w.token := by
  rw [wake]
  split <;> rfl

namespace Forest

variable {f g : Forest} {action : Action} {next : List Action} {p c t u : Token}
variable {change : Node → Node}

/-- The token that each waiter waits for. -/
def waitedFor (f : Forest) : List Token := f.waiters.map Waiter.token

/-- There is nothing to be done any more. -/
def Moot (f : Forest) : Action → Prop
  | .raise t => f.isCancelled t = true ∨ f.nodes.length ≤ t
  | .follow t => f.isHeld t = false
  | .check w | .sleep w => f.waiters[w]? = none
  | _ => False

/-- What an action makes of a forest, and the actions that it leads to. -/
inductive Performed (f : Forest) : Action → Forest → List Action → Prop
  | moot {action : Action} (h : f.Moot action) : Performed f action f []
  | raise {t : Token} (ht : t < f.nodes.length) (hdown : f.isCancelled t = false) :
      Performed f (.raise t) (f.modifyNode t fun node => { node with isCancelled := true })
        [.notify t, .takeChildren t]
  | notify {t : Token} : Performed f (.notify t)
      { f with waiters := f.waiters.map fun w => if w.token = t then w.wake else w } []
  | takeChildren {t : Token} (hfree : f.isLocked t = false) : Performed f (.takeChildren t)
      (f.modifyNode t fun node => { node with children := [] }) ((f.childrenOf t).map .follow)
  | follow {t : Token} (hheld : f.isHeld t = true) :
      Performed f (.follow t) (f.retain t) [.raise t, .release t]
  | release {t : Token} : Performed f (.release t) (f.release t) []
  | lock {t : Token} (hfree : f.isLocked t = false) : Performed f (.lock t)
      (f.modifyNode t fun node => { node with isLocked := true }) []
  | attachUp {p c : Token} (hup : f.isCancelled p = true) :
      Performed f (.attach p c) f [.unlock p, .raise c]
  | attachDown {p c : Token} (hdown : f.isCancelled p = false) :
      Performed f (.attach p c) f [.link p c]
  | link {p c : Token} : Performed f (.link p c)
      (f.modifyNode p fun node =>
        { node with children := node.children.filter f.isHeld ++ [c], isLocked := false }) []
  | unlock {t : Token} : Performed f (.unlock t)
      (f.modifyNode t fun node => { node with isLocked := false }) []
  | listen {w : WaiterId} : Performed f (.listen w)
      (f.modifyWaiter w fun waiter => { waiter with isListening := true, isNotified := false })
      [.check w]
  | checkUp {w : WaiterId} {waiter : Waiter} (hw : f.waiters[w]? = some waiter)
      (hup : f.isCancelled waiter.token = true) : Performed f (.check w)
      (f.modifyWaiter w fun waiter => { waiter with isListening := false })
      [.release waiter.token]
  | checkDown {w : WaiterId} {waiter : Waiter} (hw : f.waiters[w]? = some waiter)
      (hdown : f.isCancelled waiter.token = false) : Performed f (.check w) f [.sleep w]
  | awake {w : WaiterId} {waiter : Waiter} (hw : f.waiters[w]? = some waiter)
      (hn : waiter.isNotified = true) : Performed f (.sleep w)
      (f.modifyWaiter w fun waiter => { waiter with isListening := false, isNotified := false })
      [.listen w]

/-- Each action that is carried out does one of these things. -/
theorem performed_of_perform (h : f.perform action = some (g, next)) :
    Performed f action g next := by
  cases action with
  | raise t =>
    simp only [perform] at h
    split at h
    · rename_i hnone
      obtain ⟨rfl, rfl⟩ := by simpa using h
      exact .moot (.inr (List.getElem?_eq_none_iff.mp hnone))
    · rename_i node hnode
      split at h
      · rename_i hup
        obtain ⟨rfl, rfl⟩ := by simpa using h
        refine .moot (.inl ?_)
        rw [isCancelled, hnode]
        exact hup
      · rename_i hdown
        obtain ⟨rfl, rfl⟩ := by simpa using h
        refine .raise (List.getElem?_eq_some_iff.mp hnode).1 ?_
        rw [isCancelled, hnode]
        exact Bool.eq_false_iff.mpr hdown
  | notify t =>
    -- who does not listen is not woken, in either way to say it
    obtain ⟨rfl, rfl⟩ := by simpa [perform] using h
    have hwake : (fun w : Waiter => if w.token = t then w.wake else w) =
        fun w => if w.token = t ∧ w.isListening then { w with isNotified := true } else w := by
      funext w
      rw [Waiter.wake, ite_and]
    rw [← hwake]
    exact .notify
  | takeChildren t =>
    simp only [perform] at h
    split at h
    · rename_i hnone
      obtain ⟨rfl, rfl⟩ := by simpa using h
      -- there is no such token: taking its links is taking none
      have hsame : (f.modifyNode t fun node => { node with children := [] }) = f := by
        rw [modifyNode, List.modify_eq_self (List.getElem?_eq_none_iff.mp hnone)]
      have hfree : f.isLocked t = false := by rw [isLocked, hnone]
      have htake := Performed.takeChildren hfree
      rwa [hsame, childrenOf, hnone] at htake
    · rename_i node hnode
      split at h
      · cases h
      · rename_i hfree
        obtain ⟨rfl, rfl⟩ := by simpa using h
        have hfree' : f.isLocked t = false := by
          rw [isLocked, hnode]
          exact Bool.eq_false_iff.mpr hfree
        have htake := Performed.takeChildren hfree'
        rwa [childrenOf, hnode] at htake
  | follow t =>
    simp only [perform] at h
    split at h
    · rename_i hheld
      obtain ⟨rfl, rfl⟩ := by simpa using h
      exact .follow hheld
    · rename_i hheld
      obtain ⟨rfl, rfl⟩ := by simpa using h
      exact .moot (Bool.eq_false_iff.mpr hheld)
  | release t =>
    obtain ⟨rfl, rfl⟩ := by simpa [perform] using h
    exact .release
  | lock t =>
    simp only [perform] at h
    split at h
    · cases h
    · rename_i hfree
      obtain ⟨rfl, rfl⟩ := by simpa using h
      exact .lock (Bool.eq_false_iff.mpr hfree)
  | attach p c =>
    simp only [perform] at h
    split at h
    · rename_i hup
      obtain ⟨rfl, rfl⟩ := by simpa using h
      -- a cancelled parent gets no link: the flag of the child goes up instead
      exact .attachUp hup
    · rename_i hdown
      obtain ⟨rfl, rfl⟩ := by simpa using h
      exact .attachDown (Bool.eq_false_iff.mpr hdown)
  | link p c =>
    obtain ⟨rfl, rfl⟩ := by simpa [perform] using h
    exact .link
  | unlock t =>
    obtain ⟨rfl, rfl⟩ := by simpa [perform] using h
    exact .unlock
  | listen w =>
    obtain ⟨rfl, rfl⟩ := by simpa [perform] using h
    exact .listen
  | check w =>
    simp only [perform] at h
    split at h
    · rename_i hnone
      obtain ⟨rfl, rfl⟩ := by simpa using h
      exact .moot hnone
    · rename_i waiter hw
      split at h
      · rename_i hup
        obtain ⟨rfl, rfl⟩ := by simpa using h
        exact .checkUp hw hup
      · rename_i hdown
        obtain ⟨rfl, rfl⟩ := by simpa using h
        exact .checkDown hw (Bool.eq_false_iff.mpr hdown)
  | sleep w =>
    simp only [perform] at h
    split at h
    · rename_i hnone
      obtain ⟨rfl, rfl⟩ := by simpa using h
      exact .moot hnone
    · rename_i waiter hw
      split at h
      · rename_i hn
        obtain ⟨rfl, rfl⟩ := by simpa using h
        exact .awake hw hn
      · cases h

/-- Links that are still to be followed hold nothing. -/
theorem total_claims_follow (waitedFor children : List Token) (t : Token) :
    total (Action.claims waitedFor t) (children.map .follow) = 0 := by
  induction children with
  | nil => rfl
  | cons c children ih =>
    rw [List.map_cons, total_cons, ih]
    rfl

theorem lt_length_of_isLocked (h : f.isLocked t = true) : t < f.nodes.length := by
  by_contra hge
  simp [isLocked, List.getElem?_eq_none (Nat.not_lt.mp hge)] at h

theorem isLocked_modifyNode_of {b : Bool} (h : ∀ node, (change node).isLocked = b)
    (ht : t < f.nodes.length) : (f.modifyNode t change).isLocked t = b := by
  rw [isLocked, getElem?_nodes_modifyNode, if_pos rfl, List.getElem?_eq_getElem ht]
  exact h _

theorem isLocked_modifyNode_of_ne (h : u ≠ t) :
    (f.modifyNode t change).isLocked u = f.isLocked u := by
  rw [isLocked, isLocked, getElem?_nodes_modifyNode, if_neg (Ne.symm h)]

namespace Performed

variable (h : Performed f action g next)
include h

/-! ## Flags and links

Only two actions change links: the one that takes them all, and the one that makes a new one. Only
one raises a flag, and none takes one down. -/

theorem length_nodes : g.nodes.length = f.nodes.length := by
  cases h <;> first | rfl | exact length_nodes_modifyNode ..

/-- **A flag goes up when its token is raised**, and no flag ever goes down. -/
theorem isCancelled_iff : g.isCancelled u = true ↔
    f.isCancelled u = true ∨ action = .raise u ∧ u < f.nodes.length := by
  -- an action that raises no flag leaves all of them
  have hkeep (hflag : g.isCancelled u = f.isCancelled u)
      (hmoot : action = .raise u → u < f.nodes.length → f.isCancelled u = true) :
      g.isCancelled u = true ↔ f.isCancelled u = true ∨ action = .raise u ∧ u < f.nodes.length := by
    rw [hflag]
    exact ⟨.inl, fun h => h.elim id fun ⟨ha, hu⟩ => hmoot ha hu⟩
  cases h with
  | moot hm =>
    refine hkeep rfl fun ha hu => ?_
    subst ha
    exact hm.resolve_right (Nat.not_le.mpr hu)
  | @raise t ht hdown =>
    rw [isCancelled_raise_iff]
    refine or_congr_right ⟨?_, ?_⟩
    · rintro ⟨rfl, hu⟩
      exact ⟨rfl, hu⟩
    · rintro ⟨ha, hu⟩
      obtain rfl := Action.raise.inj ha
      exact ⟨rfl, hu⟩
  | attachUp | attachDown | notify | listen | checkUp | checkDown | awake =>
    exact hkeep rfl fun ha => by cases ha
  | takeChildren | follow | release | lock | link | unlock =>
    exact hkeep (isCancelled_modifyNode fun _ => rfl) fun ha => by cases ha

theorem isCancelled_of (hup : f.isCancelled u = true) : g.isCancelled u = true :=
  h.isCancelled_iff.mpr (.inl hup)

/-- Links change when they are taken, and when one is made. -/
theorem childrenOf_eq (htake : action ≠ .takeChildren u) (hlink : ∀ c, action ≠ .link u c) :
    g.childrenOf u = f.childrenOf u := by
  cases h with
  | moot | attachUp | attachDown | notify | listen | checkUp | checkDown | awake => rfl
  | raise | follow | release | lock | unlock => exact childrenOf_modifyNode fun _ => rfl
  | @takeChildren t => rw [childrenOf_takeChildren, if_neg fun hut => htake (by rw [hut])]
  | @link p c =>
    rw [childrenOf, getElem?_nodes_modifyNode, if_neg fun hpu => hlink c (by rw [hpu]), childrenOf]

omit h in
/-- Whoever takes the links takes all of them, and has to follow each. -/
theorem childrenOf_takeChildren (h : Performed f (.takeChildren t) g next) :
    g.childrenOf t = [] ∧ next = (f.childrenOf t).map .follow := by
  cases h with
  | moot hm => exact hm.elim
  | takeChildren => exact ⟨by rw [Forest.childrenOf_takeChildren, if_pos rfl], rfl⟩

omit h in
/-- A new link comes last, and those to tokens that nothing holds are dropped. -/
theorem childrenOf_link (h : Performed f (.link p c) g next) (hp : p < f.nodes.length) :
    g.childrenOf p = (f.childrenOf p).filter f.isHeld ++ [c] := by
  cases h with
  | moot hm => exact hm.elim
  | link =>
    rw [childrenOf, childrenOf, getElem?_nodes_modifyNode, if_pos rfl, List.getElem?_eq_getElem hp]
    rfl

/-- Every link was there before or is made by the action. -/
theorem mem_childrenOf (hc : c ∈ g.childrenOf u) : c ∈ f.childrenOf u ∨ action = .link u c := by
  by_cases htake : action = .takeChildren u
  · subst htake
    rw [h.childrenOf_takeChildren.1] at hc
    cases hc
  · by_cases hlink : ∃ c', action = .link u c'
    · obtain ⟨c', rfl⟩ := hlink
      have hu : u < f.nodes.length := by
        by_contra hge
        rw [childrenOf_of_length_le (h.length_nodes ▸ Nat.not_lt.mp hge)] at hc
        cases hc
      rw [h.childrenOf_link hu] at hc
      rcases List.mem_append.mp hc with hmem | hmem
      · exact .inl (List.mem_filter.mp hmem).1
      · exact .inr (by rw [List.mem_singleton.mp hmem])
    · rw [h.childrenOf_eq htake fun c' hc' => hlink ⟨c', hc'⟩] at hc
      exact .inl hc

/-- **A link to a token that something holds stays until it is followed.** -/
theorem mem_childrenOf_or_follow (hc : c ∈ f.childrenOf u) (hheld : f.isHeld c = true) :
    c ∈ g.childrenOf u ∨ .follow c ∈ next := by
  by_cases htake : action = .takeChildren u
  · subst htake
    rw [h.childrenOf_takeChildren.2]
    exact .inr (List.mem_map_of_mem hc)
  · refine .inl ?_
    by_cases hlink : ∃ c', action = .link u c'
    · obtain ⟨c', rfl⟩ := hlink
      have hu : u < f.nodes.length := by
        by_contra hge
        rw [childrenOf_of_length_le (Nat.not_lt.mp hge)] at hc
        cases hc
      rw [h.childrenOf_link hu]
      exact List.mem_append_left _ (List.mem_filter.mpr ⟨hc, hheld⟩)
    · rw [h.childrenOf_eq htake fun c' hc' => hlink ⟨c', hc'⟩]
      exact hc

/-! ## What an action leads to

An action can lay others upon its call. Which ones is fixed by the action and by what it finds, so
that a call never attaches or locks twice. -/

/-- When a flag goes up, the waiters are yet to be notified, and the links to be taken. -/
theorem mem_of_isCancelled (hdown : f.isCancelled t = false) (hup : g.isCancelled t = true) :
    .notify t ∈ next ∧ .takeChildren t ∈ next := by
  obtain ⟨rfl, ht⟩ := (h.isCancelled_iff.mp hup).resolve_left (by rw [hdown]; exact Bool.false_ne_true)
  cases h with
  | moot hm =>
    rcases hm with hup' | hge
    · rw [hdown] at hup'; cases hup'
    · exact absurd ht (Nat.not_lt.mpr hge)
  | raise => simp

/-- **Whoever sees to a child hands the matter on until it is done.** -/
theorem minds_or (hminds : action.minds p c = true) (hp : p < f.nodes.length)
    (hheld : f.isHeld c = true) : g.isCancelled c = true ∨ c ∈ g.childrenOf p ∨
      ∃ a ∈ next, a.minds p c = true := by
  -- from attaching to the link or the raised flag, each action passes the child on to the next
  cases action with
  | raise d =>
    obtain rfl : d = c := by simpa [Action.minds] using hminds
    exact .inl (h.isCancelled_iff.mpr (.inr ⟨rfl, lt_length_of_isHeld hheld⟩))
  | follow d =>
    obtain rfl : d = c := by simpa [Action.minds] using hminds
    cases h with
    | moot hm =>
      rw [show f.isHeld d = false from hm] at hheld
      cases hheld
    | follow => exact .inr (.inr ⟨.raise d, by simp, by simp [Action.minds]⟩)
  | attach q d =>
    obtain ⟨rfl, rfl⟩ : q = p ∧ d = c := by simpa [Action.minds] using hminds
    cases h with
    | moot hm => exact hm.elim
    | attachUp => exact .inr (.inr ⟨.raise d, by simp, by simp [Action.minds]⟩)
    | attachDown => exact .inr (.inr ⟨.link q d, by simp, by simp [Action.minds]⟩)
  | link q d =>
    obtain ⟨rfl, rfl⟩ : q = p ∧ d = c := by simpa [Action.minds] using hminds
    rw [h.childrenOf_link hp]
    exact .inr (.inl (List.mem_append_right _ (List.mem_singleton.mpr rfl)))
  | _ => cases hminds

theorem attach_notMem : .attach p c ∉ next := by
  cases h <;> simp

theorem lock_notMem : .lock p ∉ next := by
  cases h <;> simp

/-- Attachments are only used up: no action leads to one. -/
theorem countP_attaches : next.countP (·.attaches p) = 0 := by
  refine List.countP_eq_zero.mpr fun a ha => ?_
  cases a with
  | attach q c => exact absurd ha h.attach_notMem
  | _ => exact Bool.false_ne_true

theorem countP_locks : next.countP (·.locks p) = 0 :=
  Action.countP_locks_eq_zero fun _ => h.lock_notMem

/-- Only an attachment that finds the flag of the parent down leads to a link. -/
theorem link_mem (hlink : .link p c ∈ next) :
    action = .attach p c ∧ f.isCancelled p = false := by
  cases h with
  | attachDown hdown =>
    simp only [List.mem_singleton, Action.link.injEq] at hlink
    obtain ⟨rfl, rfl⟩ := hlink
    exact ⟨rfl, hdown⟩
  | _ => simp at hlink

/-- A waiter is attended to by one action after another, never by two at once. -/
theorem countP_attends_le (w : WaiterId) :
    next.countP (·.attends w) ≤ (action.attends w).toNat := by
  have hhand {a : Action} (ha : a.attends w = action.attends w) :
      [a].countP (·.attends w) ≤ (action.attends w).toNat := by
    rw [List.countP_singleton, ha]
    cases action.attends w <;> exact Nat.le_refl _
  cases h with
  | listen | checkDown | awake => exact hhand rfl
  | takeChildren => simp [Action.attends, Function.comp_def]
  | _ => exact Nat.zero_le _

/-! ## Locks

A lock is taken by one action and given back by another one of the same call. -/

/-- **Links are locked by those who lock them until the same ones unlock them.** -/
theorem isLocked_add (hexists : action.locks p = true → p < f.nodes.length)
    (hlocked : action.unlocks p = true → f.isLocked p = true) :
    (g.isLocked p).toNat + (action.attaches p).toNat + (action.unlocks p).toNat =
      (f.isLocked p).toNat + (action.locks p).toNat + next.countP (·.unlocks p) := by
  have hkeep (hflag : g.isLocked p = f.isLocked p) (hlocks : action.locks p = false)
      (hunlocks : action.unlocks p = false)
      (hnext : next.countP (·.unlocks p) = (action.attaches p).toNat) :
      (g.isLocked p).toNat + (action.attaches p).toNat + (action.unlocks p).toNat =
        (f.isLocked p).toNat + (action.locks p).toNat + next.countP (·.unlocks p) := by
    rw [hflag, hlocks, hunlocks, hnext, Bool.toNat_false, Nat.add_zero, Nat.add_zero]
  -- whoever unlocks the links is the one who has locked them
  have hgive (hlocks : action.locks p = action.attaches p) (hnext : next = [])
      (hset : action.unlocks p = true → g.isLocked p = false)
      (hother : action.unlocks p = false → g.isLocked p = f.isLocked p) :
      (g.isLocked p).toNat + (action.attaches p).toNat + (action.unlocks p).toNat =
        (f.isLocked p).toNat + (action.locks p).toNat + next.countP (·.unlocks p) := by
    rw [hlocks, hnext, List.countP_nil]
    cases hunlocks : action.unlocks p with
    | true =>
      rw [hset hunlocks, hlocked hunlocks, Bool.toNat_false, Bool.toNat_true]
      omega
    | false =>
      rw [hother hunlocks, Bool.toNat_false]
  cases h with
  | @moot action hm => cases action <;> first | exact hm.elim | exact hkeep rfl rfl rfl rfl
  | notify | listen | checkUp | checkDown | awake => exact hkeep rfl rfl rfl rfl
  | raise | follow | release => exact hkeep (isLocked_modifyNode fun _ => rfl) rfl rfl rfl
  | takeChildren =>
    refine hkeep (isLocked_modifyNode fun _ => rfl) rfl rfl ?_
    rw [List.countP_map]
    exact congrFun List.countP_false _
  | @attachUp q | @attachDown q =>
    refine hkeep rfl rfl rfl ?_
    by_cases hqp : q = p <;> simp [Action.unlocks, Action.attaches, hqp]
  | @lock t hfree =>
    by_cases hpt : p = t
    · subst hpt
      have hset : (f.modifyNode p fun node => { node with isLocked := true }).isLocked p = true :=
        isLocked_modifyNode_of (fun _ => rfl) (hexists (by simp [Action.locks]))
      rw [hset, hfree]
      simp [Action.attaches, Action.unlocks, Action.locks]
    · rw [isLocked_modifyNode_of_ne hpt]
      simp [Action.attaches, Action.unlocks, Action.locks, Ne.symm hpt]
  | @link q c =>
    refine hgive rfl rfl (fun hq => ?_) fun hq => ?_
    · obtain rfl : q = p := by simpa [Action.unlocks] using hq
      exact isLocked_modifyNode_of (fun _ => rfl) (lt_length_of_isLocked (hlocked hq))
    · exact isLocked_modifyNode_of_ne fun hpq => by simp [Action.unlocks, hpq] at hq
  | @unlock q =>
    refine hgive rfl rfl (fun hq => ?_) fun hq => ?_
    · obtain rfl : q = p := by simpa [Action.unlocks] using hq
      exact isLocked_modifyNode_of (fun _ => rfl) (lt_length_of_isLocked (hlocked hq))
    · exact isLocked_modifyNode_of_ne fun hpq => by simp [Action.unlocks, hpq] at hq

/-! ## Holders

A token is held for each handle, for each waiter and for each call that has still to give it back.
-/

/-- Nobody changes what a waiter waits for. -/
theorem waitedFor_eq : g.waitedFor = f.waitedFor := by
  have hmodify {w : WaiterId} {change : Waiter → Waiter}
      (hchange : ∀ waiter, (change waiter).token = waiter.token) :
      (f.modifyWaiter w change).waitedFor = f.waitedFor :=
    map_modify_of_forall hchange f.waiters w
  cases h with
  | notify =>
    rw [waitedFor, List.map_map]
    refine List.map_congr_left fun w _ => ?_
    rw [Function.comp_apply]
    split
    · exact w.token_wake
    · rfl
  | listen | checkUp | awake => exact hmodify fun _ => rfl
  | _ => rfl

/-- **Whoever holds a token lets it go once.** What follows a link holds the child from then on. -/
theorem holdersOf_add (hheld : action.claims f.waitedFor t ≤ f.holdersOf t) :
    g.holdersOf t + action.claims f.waitedFor t =
      f.holdersOf t + total (Action.claims g.waitedFor t) next := by
  rw [h.waitedFor_eq]
  -- most actions change neither the holders nor what is still to be released
  have hkeep (hholders : g.holdersOf t = f.holdersOf t)
      (hclaims : total (Action.claims f.waitedFor t) next = action.claims f.waitedFor t) :
      g.holdersOf t + action.claims f.waitedFor t =
        f.holdersOf t + total (Action.claims f.waitedFor t) next := by
    rw [hholders, hclaims]
  cases h with
  | @moot action hm =>
    cases action with
    | raise | follow => exact hkeep rfl rfl
    | check w | sleep w =>
      have hnone : f.waitedFor[w]? = none := by
        rw [waitedFor, List.getElem?_map, show f.waiters[w]? = none from hm]
        rfl
      exact hkeep rfl (by simp [Action.claims, hnone])
    | _ => exact hm.elim
  | notify | attachUp | attachDown => exact hkeep rfl rfl
  | raise | lock | link | unlock => exact hkeep (holdersOf_modifyNode fun _ => rfl) rfl
  | takeChildren =>
    exact hkeep (holdersOf_modifyNode fun _ => rfl) (total_claims_follow ..)
  | @follow u hu =>
    rw [holdersOf_retain (lt_length_of_isHeld hu)]
    simp [Action.claims, eq_comm]
  | @release u =>
    rw [holdersOf_release]
    simp only [Action.claims, eq_comm (a := u)] at hheld ⊢
    simp only [total_nil]
    omega
  | listen | awake | checkDown => exact hkeep rfl (by simp [Action.claims])
  | @checkUp w waiter hw =>
    -- the waiter that finds the flag up gives back its token with its last action
    have hsome : f.waitedFor[w]? = some waiter.token := by
      rw [waitedFor, List.getElem?_map, hw]
      rfl
    exact hkeep rfl (by simp [Action.claims, hsome])

/-- Nothing comes back that nothing holds. -/
theorem isHeld_of (hheld : g.isHeld t = true) : f.isHeld t = true := by
  have hkeep (hholders : g.holdersOf t = f.holdersOf t) : f.isHeld t = true := by
    rwa [isHeld_iff, hholders, ← isHeld_iff] at hheld
  cases h with
  | moot | attachUp | attachDown | notify | listen | checkUp | checkDown | awake => exact hheld
  | raise | takeChildren | lock | link | unlock => exact hkeep (holdersOf_modifyNode fun _ => rfl)
  | follow hu => exact isHeld_of_retain hu hheld
  | release => exact isHeld_of_release hheld

/-! ## Waiters

A notification is never lost: it is put down with every waiter that listens, and stays there until
the waiter begins afresh. -/

/-- Whoever is not attended by the action learns of nothing but a notification. -/
theorem getElem?_waiters {w : WaiterId} (hother : action.attends w = false) :
    g.waiters[w]? = f.waiters[w]?.map fun v => if action = .notify v.token then v.wake else v := by
  have hkeep (hsame : g.waiters[w]? = f.waiters[w]?) (hnotify : ∀ t, action ≠ .notify t) :
      g.waiters[w]? = f.waiters[w]?.map fun v => if action = .notify v.token then v.wake else v := by
    rw [hsame]
    cases f.waiters[w]? with
    | none => rfl
    | some v => rw [Option.map_some, if_neg (hnotify _)]
  have hmodify {change : Waiter → Waiter} {v : WaiterId} (hv : decide (v = w) = false) :
      (f.modifyWaiter v change).waiters[w]? = f.waiters[w]? := by
    rw [getElem?_waiters_modifyWaiter, if_neg (of_decide_eq_false hv)]
  cases h with
  | moot hm =>
    refine hkeep rfl fun t ht => ?_
    subst ht
    exact hm
  | @notify t =>
    show (f.waiters.map _)[w]? = _
    rw [List.getElem?_map]
    refine Option.map_congr fun v _ => ?_
    simp only [Action.notify.injEq, eq_comm]
  | listen | checkUp | awake => exact hkeep (hmodify hother) fun t ht => by cases ht
  | _ => exact hkeep rfl fun t ht => by cases ht

/-- Whoever is going to read the flag has begun to listen. -/
theorem check_mem {w : WaiterId} {v : Waiter} (hcheck : .check w ∈ next)
    (hv : g.waiters[w]? = some v) : action.attends w = true ∧ v.isListening = true := by
  cases h with
  | @listen w' =>
    obtain rfl : w = w' := by simpa using hcheck
    rw [getElem?_waiters_modifyWaiter, if_pos rfl] at hv
    obtain ⟨v', -, rfl⟩ := Option.map_eq_some_iff.mp hv
    exact ⟨by simp [Action.attends], rfl⟩
  | _ => simp at hcheck

/-- Whoever is going to sleep has just found the flag down. -/
theorem sleep_mem {w : WaiterId} {v : Waiter} (hsleep : .sleep w ∈ next)
    (hv : g.waiters[w]? = some v) :
    action = .check w ∧ g = f ∧ f.isCancelled v.token = false := by
  cases h with
  | @checkDown w' v' hv' hdown =>
    obtain rfl : w = w' := by simpa using hsleep
    obtain rfl : v' = v := Option.some.inj (hv'.symm.trans hv)
    exact ⟨rfl, rfl, hdown⟩
  | _ => simp at hsleep

end Performed

end Forest

end EdgeInclude.Cancellation
