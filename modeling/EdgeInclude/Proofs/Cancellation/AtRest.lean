import EdgeInclude.Proofs.Cancellation.Weaving

/-!
# Calls at once, and when they are over

Whatever calls go on at once over a forest, and in whatever order their actions come, links, flags and
waiters stay tied to what the calls have still to do. When no call is under way that cancels or makes a
child, what they have still to do is to wait, so nothing is left undone.

* **`Interleaving.Happens`**: what an event does. `happens_of_step` reads it off.
* **`Interleaving.holdings`**: who holds a token: handles, calls, and those that make it.
* **`Interleaving.Woven`**: what holds at any time. **`Woven.run`**: after any events.
* **`nothing_is_lost`**: when no call is under way.
-/

namespace EdgeInclude.Cancellation

open Forest

/-- The call makes the token, which has no handle yet. -/
def Call.expects (t : Token) (call : Call) : Bool :=
  call.purpose = .makeChild t && !call.isEnded

namespace Interleaving

variable {s s' : Interleaving} {event : Event} {events : List Event} {t u : Token}

/-! ## What an event does

An event begins a call, carries one on by one action, or adds and drops handles. What it does is put
down here with what it takes for granted. -/

/-- What an event does to calls at once. -/
inductive Happens (s : Interleaving) : Event → Interleaving → Prop
  | create : Happens s .create
      { s with forest := s.forest.create.2, handles := s.handles ++ [s.forest.nodes.length] }
  | clone {t : Token} (ht : t ∈ s.handles) : Happens s (.clone t)
      { s with forest := s.forest.retain t, handles := s.handles ++ [t] }
  | drop {t : Token} (ht : t ∈ s.handles) : Happens s (.drop t)
      { s with forest := s.forest.release t, handles := s.handles.erase t }
  | cancel {t : Token} (ht : t ∈ s.handles) : Happens s (.cancel t)
      { s with
        forest := s.forest.retain t
        calls := s.calls ++ [⟨.cancel, [.raise t, .release t]⟩] }
  | makeChild {p : Token} (hp : p ∈ s.handles) : Happens s (.makeChild p)
      { s with
        forest := s.forest.create.2.retain p
        calls := s.calls ++ [⟨.makeChild s.forest.nodes.length,
          [.lock p, .attach p s.forest.nodes.length, .release p]⟩]
        kinships := s.kinships ++ [(p, s.forest.nodes.length)] }
  | wait {t : Token} (ht : t ∈ s.handles) : Happens s (.wait t)
      { s with
        forest := (s.forest.addWaiter t).2
        calls := s.calls ++ [⟨.wait, waitCall s.forest.waiters.length⟩] }
  | advance {i : Nat} {call : Call} {action : Action} {todo next : List Action} {g : Forest}
      (hcall : s.calls[i]? = some call) (htodo : call.todo = action :: todo)
      (hperform : s.forest.perform action = some (g, next)) : Happens s (.advance i)
      { s with
        forest := g
        calls := s.calls.set i { call with todo := next ++ todo }
        handles := s.handlesAfter { call with todo := next ++ todo } }

/-- Every event that can happen does one of these things. -/
theorem happens_of_step (h : s.step event = some s') : Happens s event s' := by
  cases event with
  | create =>
    obtain rfl := Option.some.inj h
    exact .create
  | clone t =>
    simp only [step] at h
    split at h
    · rename_i ht
      obtain rfl := Option.some.inj h
      exact .clone ht
    · cases h
  | drop t =>
    simp only [step] at h
    split at h
    · rename_i ht
      obtain rfl := Option.some.inj h
      exact .drop ht
    · cases h
  | cancel t =>
    simp only [step] at h
    split at h
    · rename_i ht
      obtain rfl := Option.some.inj h
      exact .cancel ht
    · cases h
  | makeChild p =>
    simp only [step] at h
    split at h
    · rename_i hp
      obtain rfl := Option.some.inj h
      exact .makeChild hp
    · cases h
  | wait t =>
    simp only [step] at h
    split at h
    · rename_i ht
      obtain rfl := Option.some.inj h
      exact .wait ht
    · cases h
  | advance i =>
    simp only [step, advance] at h
    split at h
    · cases h
    · rename_i call hcall
      split at h
      · cases h
      · rename_i action todo htodo
        obtain ⟨⟨g, next⟩, hperform, rfl⟩ := Option.map_eq_some_iff.mp h
        exact .advance hcall htodo hperform

/-! ## Who holds what

The holders of a token are counted over handles and over all that calls have still to do. -/

/-- How many handles and calls hold a token. -/
def holdings (s : Interleaving) (t : Token) : Nat :=
  s.handles.count t + s.calls.countP (·.expects t) +
    total (Action.claims s.forest.waitedFor t) (agenda s.calls)

/-- When a call goes on, the claims of one action give way to those of the actions that it leads to.
-/
theorem total_claims_agenda (before after next : List Action) (action : Action)
    (waitedFor : List Token) (t : Token) :
    total (Action.claims waitedFor t) (before ++ (next ++ after)) + action.claims waitedFor t =
      total (Action.claims waitedFor t) (before ++ action :: after) +
        total (Action.claims waitedFor t) next := by
  simp only [total_append, total_cons]
  omega

/-- Whom the others wait for does not depend on who has come to wait since. -/
theorem claims_concat {a : Action} {waitedFor : List Token}
    (ha : ∀ w, a.attends w = true → w < waitedFor.length) (t u : Token) :
    a.claims (waitedFor ++ [t]) u = a.claims waitedFor u := by
  cases a with
  | listen w | check w | sleep w =>
    have hw : w < waitedFor.length := ha w (decide_eq_true rfl)
    simp only [Action.claims, List.getElem?_append_left hw]
  | _ => rfl

/-- A new waiter claims nothing in calls that do not know it. -/
theorem total_claims_concat {l : List Action} {waitedFor : List Token}
    (hl : ∀ a ∈ l, ∀ w, a.attends w = true → w < waitedFor.length) (t u : Token) :
    total (Action.claims (waitedFor ++ [t]) u) l = total (Action.claims waitedFor u) l := by
  induction l with
  | nil => rfl
  | cons a l ih =>
    rw [total_cons, total_cons, claims_concat (hl a List.mem_cons_self),
      ih fun b hb => hl b (List.mem_cons_of_mem _ hb)]

/-- A call that begins holds what it has to let go again, and the token that it makes. -/
theorem holdings_begin (s : Interleaving) (f : Forest) (kin : List (Token × Token)) (call : Call)
    (hold : total (Action.claims f.waitedFor t) (agenda s.calls) =
      total (Action.claims s.forest.waitedFor t) (agenda s.calls)) :
    holdings { s with forest := f, calls := s.calls ++ [call], kinships := kin } t =
      s.holdings t + (if call.expects t = true then 1 else 0) +
        total (Action.claims f.waitedFor t) call.todo := by
  show s.handles.count t + (s.calls ++ [call]).countP (·.expects t) +
    total (Action.claims f.waitedFor t) (agenda (s.calls ++ [call])) = _
  rw [agenda_concat, total_append, hold, List.countP_append, List.countP_singleton, holdings]
  omega

/-- A new token gets its handle when the call that makes it ends. -/
theorem count_handlesAfter {i : Nat} {call : Call} {action : Action} {todo : List Action}
    (hcall : s.calls[i]? = some call) (htodo : call.todo = action :: todo) (next : List Action)
    (t : Token) :
    (s.handlesAfter { call with todo := next ++ todo }).count t +
        (s.calls.set i { call with todo := next ++ todo }).countP (·.expects t) =
      s.handles.count t + s.calls.countP (·.expects t) := by
  obtain ⟨hi, hget⟩ := List.getElem?_eq_some_iff.mp hcall
  have hpos (hexpects : call.expects t = true) : 0 < s.calls.countP (·.expects t) :=
    List.countP_pos_iff.mpr ⟨call, List.mem_of_getElem? hcall, hexpects⟩
  rw [List.countP_set hi, hget]
  obtain ⟨purpose, todo'⟩ := call
  obtain rfl : todo' = action :: todo := htodo
  cases purpose with
  | cancel | wait => simp [handlesAfter, Call.expects]
  | makeChild child =>
    -- the child is expected until the call ends, and is a handle from then on
    by_cases ht : child = t
    · subst ht
      have hwas : Call.expects child ⟨.makeChild child, action :: todo⟩ = true := by
        simp [Call.expects, Call.isEnded]
      have hpos := hpos hwas
      cases next ++ todo with
      | nil =>
        have hnow : Call.expects child ⟨.makeChild child, []⟩ = false := by
          simp [Call.expects, Call.isEnded]
        have hhandles : s.handlesAfter ⟨.makeChild child, []⟩ = s.handles ++ [child] := rfl
        rw [hwas, hnow, hhandles, List.count_append, List.count_singleton_self, if_pos rfl,
          if_neg Bool.false_ne_true]
        omega
      | cons a rest =>
        have hnow : Call.expects child ⟨.makeChild child, a :: rest⟩ = true := by
          simp [Call.expects, Call.isEnded]
        have hhandles : s.handlesAfter ⟨.makeChild child, a :: rest⟩ = s.handles := rfl
        rw [hwas, hnow, hhandles, if_pos rfl]
        omega
    · cases next ++ todo with
      | nil => simp [handlesAfter, Call.expects, ht]
      | cons => simp [handlesAfter, Call.expects, ht]

/-! ## What holds at any time

Calls are woven together in any way. What holds nevertheless is said of the forest and of the agenda
of all calls together, and every event keeps it. -/

/-- At any time the calls are orderly, the holders are counted right, and links, flags and waiters are
tied to what the calls have still to do. -/
structure Woven (s : Interleaving) : Prop where
  orderly : ∀ call ∈ s.calls, call.Orderly
  holdersOf_eq : ∀ t, s.forest.holdersOf t = s.holdings t
  knit : Knit s.forest (agenda s.calls) s.kinships
  attended : Attended s.forest (agenda s.calls)

namespace Woven

/-- All of it holds where there is nothing. -/
theorem empty : Woven {} where
  orderly _ h := by cases h
  holdersOf_eq t := rfl
  knit := .empty
  attended := .empty

theorem isHeld_of_mem (hs : s.Woven) (ht : t ∈ s.handles) : s.forest.isHeld t = true := by
  have hpos : 0 < s.handles.count t := List.count_pos_iff.mpr ht
  rw [isHeld_iff, hs.holdersOf_eq, holdings]
  omega

/-- A call that begins is orderly, like the others. -/
theorem orderly_concat (hs : s.Woven) {call : Call} (hcall : call.Orderly) :
    ∀ c ∈ s.calls ++ [call], c.Orderly := by
  intro c hc
  rcases List.mem_append.mp hc with hc | hc
  · exact hs.orderly c hc
  · obtain rfl := List.mem_singleton.mp hc
    exact hcall

/-! ### Every event keeps it -/

/-- It is kept when a token is made, -/
theorem create (hs : s.Woven) : Woven
    { s with forest := s.forest.create.2, handles := s.handles ++ [s.forest.nodes.length] } where
  orderly := hs.orderly
  holdersOf_eq u := by
    have hold := hs.holdersOf_eq u
    rw [holdings] at hold
    show _ = (s.handles ++ [s.forest.nodes.length]).count u + s.calls.countP (·.expects u) +
      total (Action.claims s.forest.waitedFor u) (agenda s.calls)
    rw [holdersOf_create_add, hold, List.count_append, List.count_singleton]
    simp only [beq_iff_eq, eq_comm (a := s.forest.nodes.length)]
    omega
  knit := hs.knit.create
  attended := hs.attended.of_waiters_eq rfl (isCancelled_create s.forest)

/-- when a handle is cloned, -/
theorem clone (hs : s.Woven) (ht : t ∈ s.handles) : Woven
    { s with forest := s.forest.retain t, handles := s.handles ++ [t] } where
  orderly := hs.orderly
  holdersOf_eq u := by
    have hold := hs.holdersOf_eq u
    rw [holdings] at hold
    show _ = (s.handles ++ [t]).count u + s.calls.countP (·.expects u) +
      total (Action.claims s.forest.waitedFor u) (agenda s.calls)
    rw [holdersOf_retain (lt_length_of_isHeld (hs.isHeld_of_mem ht)), hold, List.count_append,
      List.count_singleton]
    simp only [beq_iff_eq, eq_comm (a := t)]
    omega
  knit := hs.knit.of_sameTree (sameTree_retain _ _) fun _ => isHeld_of_retain (hs.isHeld_of_mem ht)
  attended := hs.attended.of_waiters_eq rfl (sameTree_retain _ _).isCancelled

/-- when one is dropped, -/
theorem drop (hs : s.Woven) (ht : t ∈ s.handles) : Woven
    { s with forest := s.forest.release t, handles := s.handles.erase t } where
  orderly := hs.orderly
  holdersOf_eq u := by
    have hold := hs.holdersOf_eq u
    have hpos : 0 < s.handles.count t := List.count_pos_iff.mpr ht
    rw [holdings] at hold
    show _ = (s.handles.erase t).count u + s.calls.countP (·.expects u) +
      total (Action.claims s.forest.waitedFor u) (agenda s.calls)
    rw [holdersOf_release, hold, List.count_erase]
    by_cases hut : u = t
    · subst hut
      simp only [beq_self_eq_true, if_true]
      omega
    · simp [hut, Ne.symm hut]
  knit := hs.knit.of_sameTree (sameTree_release _ _) fun _ => isHeld_of_release
  attended := hs.attended.of_waiters_eq rfl (sameTree_release _ _).isCancelled

/-- when a cancellation begins, -/
theorem cancel (hs : s.Woven) (ht : t ∈ s.handles) : Woven
    { s with
      forest := s.forest.retain t
      calls := s.calls ++ [⟨.cancel, [.raise t, .release t]⟩] } where
  orderly := hs.orderly_concat ⟨.inl (by simp), fun h => by cases h⟩
  holdersOf_eq u := by
    rw [holdings_begin s (s.forest.retain t) s.kinships _ rfl, ← hs.holdersOf_eq,
      holdersOf_retain (lt_length_of_isHeld (hs.isHeld_of_mem ht))]
    simp [Call.expects, Action.claims, eq_comm]
  knit := by
    have hknit := hs.knit.of_sameTree (sameTree_retain _ t) fun _ =>
      isHeld_of_retain (hs.isHeld_of_mem ht)
    rw [agenda_concat, ← List.append_nil s.kinships]
    refine hknit.begin (by rw [List.append_nil]; exact hknit.toPedigree) (by simp) (by simp) ?_
    exact fun _ => rfl
  attended := by
    rw [agenda_concat]
    refine Attended.begin (hs.attended.of_waiters_eq rfl (sameTree_retain _ t).isCancelled) ?_
    simp [Action.attends]

/-- when a child is begun, -/
theorem makeChild (hs : s.Woven) (hp : t ∈ s.handles) : Woven
    { s with
      forest := s.forest.create.2.retain t
      calls := s.calls ++ [⟨.makeChild s.forest.nodes.length,
        [.lock t, .attach t s.forest.nodes.length, .release t]⟩]
      kinships := s.kinships ++ [(t, s.forest.nodes.length)] } where
  orderly := hs.orderly_concat
    ⟨.inr ⟨t, s.forest.nodes.length, _, rfl, by simp⟩, fun h => by cases h⟩
  holdersOf_eq u := by
    -- the parent has one more holder while the call is on its way
    have hheld : s.forest.create.2.isHeld t = true :=
      hs.create.isHeld_of_mem (List.mem_append_left _ hp)
    rw [holdings_begin s (s.forest.create.2.retain t) _ _ rfl, ← hs.holdersOf_eq,
      holdersOf_retain (lt_length_of_isHeld hheld), holdersOf_create_add]
    simp [Call.expects, Call.isEnded, Action.claims, eq_comm]
  knit := by
    have hheld : s.forest.create.2.isHeld t = true :=
      hs.create.isHeld_of_mem (List.mem_append_left _ hp)
    have hknit := hs.knit.create.of_sameTree (sameTree_retain _ t) fun _ => isHeld_of_retain hheld
    rw [agenda_concat]
    refine hknit.begin ?_ (by simp) (by simp) fun q => ?_
    · rw [(sameTree_retain _ _).length_nodes, length_nodes_create]
      exact hs.knit.toPedigree.concat (lt_length_of_isHeld (hs.isHeld_of_mem hp))
    · by_cases hq : t = q <;> simp [Action.locks, Action.attaches, Action.unlocks, hq]
  attended := by
    have hflags (u : Token) : (s.forest.create.2.retain t).isCancelled u = s.forest.isCancelled u :=
      ((sameTree_retain _ _).isCancelled u).trans (isCancelled_create _ u)
    rw [agenda_concat]
    refine Attended.begin (hs.attended.of_waiters_eq rfl hflags) ?_
    simp [Action.attends]

/-- and when a wait begins. -/
theorem wait (hs : s.Woven) (ht : t ∈ s.handles) : Woven
    { s with
      forest := (s.forest.addWaiter t).2
      calls := s.calls ++ [⟨.wait, waitCall s.forest.waiters.length⟩] } where
  orderly := hs.orderly_concat ⟨.inl (by simp [waitCall]), fun _ => by simp [waitCall, Waits]⟩
  holdersOf_eq u := by
    have hplace : (s.forest.addWaiter t).2.waitedFor = s.forest.waitedFor ++ [t] := List.map_append ..
    have hlength : s.forest.waitedFor.length = s.forest.waiters.length := List.length_map ..
    -- nobody on the agenda has the new waiter to see to
    have hold : total (Action.claims (s.forest.waitedFor ++ [t]) u) (agenda s.calls) =
        total (Action.claims s.forest.waitedFor u) (agenda s.calls) :=
      total_claims_concat (fun a ha w hw => hlength ▸ hs.attended.lt_length a ha w hw) t u
    have hadd : (s.forest.addWaiter t).2.holdersOf u = (s.forest.retain t).holdersOf u := rfl
    rw [holdings_begin s _ s.kinships _ (by rw [hplace, hold]), ← hs.holdersOf_eq, hadd,
      holdersOf_retain (lt_length_of_isHeld (hs.isHeld_of_mem ht)), hplace]
    simp [Call.expects, Action.claims, waitCall, ← hlength, eq_comm]
  knit := by
    have hsame : SameTree s.forest (s.forest.addWaiter t).2 :=
      (sameTree_retain _ t).trans (.of_nodes_eq rfl)
    have hknit := hs.knit.of_sameTree hsame fun _ => isHeld_of_retain (hs.isHeld_of_mem ht)
    rw [agenda_concat, ← List.append_nil s.kinships]
    refine hknit.begin (by rw [List.append_nil]; exact hknit.toPedigree) (by simp [waitCall])
      (by simp [waitCall]) ?_
    exact fun _ => rfl
  attended := by
    rw [agenda_concat]
    exact hs.attended.wait t

/-- **Every action of a call keeps it.** -/
theorem advance {i : Nat} {call : Call} {action : Action} {todo next : List Action} {g : Forest}
    (hs : s.Woven) (hcall : s.calls[i]? = some call) (htodo : call.todo = action :: todo)
    (hperform : s.forest.perform action = some (g, next)) : Woven
    { s with
      forest := g
      calls := s.calls.set i { call with todo := next ++ todo }
      handles := s.handlesAfter { call with todo := next ++ todo } } := by
  have h := performed_of_perform hperform
  obtain ⟨before, after, hbefore, hafter⟩ := agenda_set hcall htodo next
  have hknit := hs.knit
  have hattended := hs.attended
  have hlocks := countP_locks_le hs.orderly
  rw [hbefore] at hknit hattended hlocks
  refine ⟨fun c hc => ?_, fun u => ?_, ?_, ?_⟩
  · rcases List.mem_or_eq_of_mem_set hc with hc | rfl
    · exact hs.orderly c hc
    · exact (hs.orderly call (List.mem_of_getElem? hcall)).perform htodo hperform
  · have hold := hs.holdersOf_eq u
    have hhandles := count_handlesAfter hcall htodo next u
    have hagenda := total_claims_agenda before after next action s.forest.waitedFor u
    -- who is to release a token is one of its holders, so none is released twice
    have hle : action.claims s.forest.waitedFor u ≤ s.forest.holdersOf u := by
      rw [hold, holdings, hbefore, total_append, total_cons]
      omega
    have hadd := h.holdersOf_add hle
    rw [h.waitedFor_eq] at hadd
    rw [holdings, hbefore] at hold
    show g.holdersOf u = (s.handlesAfter _).count u + (s.calls.set i _).countP (·.expects u) +
      total (Action.claims g.waitedFor u) (agenda (s.calls.set i _))
    rw [h.waitedFor_eq, hafter]
    omega
  · show Knit g (agenda (s.calls.set i _)) s.kinships
    rw [hafter]
    exact hknit.perform hlocks h
  · show Attended g (agenda (s.calls.set i _))
    rw [hafter]
    exact hattended.perform h

/-- **Every event keeps it.** -/
theorem happens (hs : s.Woven) (h : Happens s event s') : s'.Woven := by
  cases h with
  | create => exact hs.create
  | clone ht => exact hs.clone ht
  | drop ht => exact hs.drop ht
  | cancel ht => exact hs.cancel ht
  | makeChild hp => exact hs.makeChild hp
  | wait ht => exact hs.wait ht
  | advance hcall htodo hperform => exact hs.advance hcall htodo hperform

/-- **However calls are woven together.** -/
theorem run (hs : s.Woven) (h : s.run events = some s') : s'.Woven := by
  induction events generalizing s with
  | nil =>
    obtain rfl := Option.some.inj h
    exact hs
  | cons event events ih =>
    obtain ⟨s₁, hstep, hrun⟩ := Option.bind_eq_some_iff.mp h
    exact ih (hs.happens (happens_of_step hstep)) hrun

end Woven

/-! ## At rest

When no cancellation and no making of a child is under way, nothing is left on the agenda but
waiting. -/

/-- All that is left to do at rest is to wait. -/
theorem waits_of_isQuiet (hs : s.Woven) (hquiet : s.isQuiet = true) :
    ∀ a ∈ agenda s.calls, Waits a := by
  intro a ha
  obtain ⟨call, hcall, ha⟩ := List.mem_flatMap.mp ha
  have hcalm := List.all_eq_true.mp hquiet call hcall
  rcases Bool.or_eq_true_iff.mp hcalm with hwait | hended
  · exact (hs.orderly call hcall).waits (of_decide_eq_true hwait) a ha
  · rw [List.isEmpty_iff.mp hended] at ha
    cases ha

/-- **No cancellation and no wake-up is lost.** However calls that cancel tokens, make children of them
and wait for them are woven together: whenever no call is under way that cancels or makes a child, each
child of a cancelled token is cancelled if something holds it, and whoever sleeps has been notified if
its token is cancelled. -/
theorem nothing_is_lost (events : List Event) (s : Interleaving)
    (hrun : ({} : Interleaving).run events = some s) (hquiet : s.isQuiet = true) :
    (∀ p c, (p, c) ∈ s.kinships → s.forest.isHeld p = true → s.forest.isCancelled p = true →
      s.forest.isHeld c = true → s.forest.isCancelled c = true) ∧
    ∀ call ∈ s.calls, ∀ w rest, call.todo = .sleep w :: rest →
      ∃ v, s.forest.waiters[w]? = some v ∧
        (s.forest.isCancelled v.token = true → v.isNotified = true) := by
  have hs : s.Woven := Woven.empty.run hrun
  have hwaits := waits_of_isQuiet hs hquiet
  have hkindred := hs.knit.kindred hwaits
  refine ⟨fun p c hkin _ hup hheld => hkindred.isCancelled_child_of hkin hup hheld,
    fun call hcall w rest htodo => ?_⟩
  have hsleep : .sleep w ∈ agenda s.calls := mem_agenda hcall (htodo ▸ List.mem_cons_self)
  have hw := hs.attended.lt_length _ hsleep w (Action.attends_sleep w)
  obtain ⟨v, hv⟩ : ∃ v, s.forest.waiters[w]? = some v := ⟨_, List.getElem?_eq_getElem hw⟩
  refine ⟨v, hv, fun hup => ?_⟩
  rcases hs.attended.alert w v hsleep hv hup with hn | hnotify
  · exact hn
  · exact absurd (hwaits _ hnotify) id

/-- A child is made, and a wait begins, while their token is cancelled. Both find the flag down just
before it goes up: the child is linked after that, and the waiter is asleep just in time. -/
def crossing : List Event :=
  [.create, .makeChild 0, .wait 0, .cancel 0, .advance 0, .advance 0, .advance 1, .advance 1,
    .advance 2, .advance 0, .advance 2, .advance 0] ++ List.replicate 7 (.advance 2)

/-- A child is made and a wait begins while the parent is being cancelled. -/
theorem nothing_is_lost_crossing :
    ∃ s, ({} : Interleaving).run crossing = some s ∧ s.isQuiet = true ∧
      s.forest.isCancelled 1 = true ∧
      ∃ v, s.forest.waiters[0]? = some v ∧ v.token = 0 ∧ v.isNotified = true := by
  have hrun : ({} : Interleaving).run crossing =
      some { forest := ⟨[⟨true, 2, [], false⟩, ⟨true, 1, [], false⟩], [⟨0, true, true⟩]⟩
             handles := [0, 1]
             calls := [⟨.makeChild 1, []⟩, ⟨.wait, [.sleep 0]⟩, ⟨.cancel, []⟩]
             kinships := [(0, 1)] } := by
    decide
  obtain ⟨hchild, hwaiter⟩ := nothing_is_lost crossing _ hrun (by decide)
  refine ⟨_, hrun, by decide, hchild 0 1 (by decide) (by decide) (by decide) (by decide), ?_⟩
  obtain ⟨v, hv, hn⟩ := hwaiter ⟨.wait, [.sleep 0]⟩ (by decide) 0 [] rfl
  obtain rfl := Option.some.inj hv
  exact ⟨_, rfl, rfl, hn (by decide)⟩

end Interleaving

end EdgeInclude.Cancellation
