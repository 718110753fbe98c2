import Mathlib.Logic.Relation
import EdgeInclude.Proofs.Batch.Delivery
import EdgeInclude.Proofs.Batch.Polls

/-!
# Turns on a clock

What the workers and the collector do in their turns are steps of the batch, and they go on until
none of them can do anything more at this instant.

* **`Move`**: a step of a worker or of the collector, or a fetch that ends as planned.
* **`Moves.eq_or_remaining_lt`**: moves use up work, so turns that come back to where they began have
  done nothing.
* **`settle_spec`**: settling is made of moves, and what is settled is quiet.
* **`Quiet.worker`**, **`Quiet.isFinished_iff`**: in a quiet batch every worker is in the midst of a
  fetch or has been joined, and the batch is finished exactly if no fetch is under way.
-/

namespace EdgeInclude.Batch

open Cancellation

variable {b : Setup} {fetcher : Fetcher} {s s' s'' : State} {label : Label} {i : Nat} {w : Worker}

/-! ## Moves

Within one instant, what happens is made of moves: steps that need nobody outside, and fetches that
end because something ends them. There is no way back from a move. -/

/-- The step is one of the batch itself: neither the world outside nor a fetch decides about it. -/
def Label.isOwn : Label → Bool
  | elapse _ | cancel _ | finish .. => false
  | _ => true

theorem Label.isInner_of_isOwn (h : label.isOwn = true) : label.isInner = true := by
  cases label <;> first | rfl | cases h

/-- What can happen at one instant when every fetch goes as planned. -/
inductive Move (b : Setup) (fetcher : Fetcher) (s : State) : State → Prop where
  /-- A step of a worker or of the collector that is not the end of a fetch. -/
  | own {label : Label} {s' : State} (hl : label.isOwn = true) (h : Transition b s label s') :
      Move b fetcher s s'
  /-- The end of a fetch. Right before its own end it may cancel its scope. -/
  | finish {i : Nat} {w : Worker} {since : Instant} {stop : Stop} {s' : State}
      (hw : s.workers[i]? = some w) (hp : w.phase = .fetching since)
      (hstop : (w.fetchSince b fetcher since).stop? b.scope s.forest s.now = some stop)
      (h : Transition b
        (if (w.fetchSince b fetcher since).cancelsScope stop then s.cancel b.scope.token else s)
        (.finish i ((w.fetchSince b fetcher since).outcome stop)) s') :
      Move b fetcher s s'

/-- Any number of moves. -/
abbrev Moves (b : Setup) (fetcher : Fetcher) : State → State → Prop :=
  Relation.ReflTransGen (Move b fetcher)

/-- What a fetch cancels at its end is no work. -/
theorem joinedEnded_cancel_if {c : Bool} {t : Token} (hj : s.JoinedEnded) :
    (if c then s.cancel t else s).JoinedEnded := by
  cases c <;> exact hj

theorem remaining_cancel_if {c : Bool} {t : Token} :
    (if c then s.cancel t else s).remaining = s.remaining := by
  cases c <;> rfl

theorem Move.joinedEnded (hj : s.JoinedEnded) (h : Move b fetcher s s') : s'.JoinedEnded := by
  cases h with
  | own _ h => exact joinedEnded_transition hj h
  | finish _ _ _ h => exact joinedEnded_transition (joinedEnded_cancel_if hj) h

/-- **A move uses up work.** -/
theorem Move.remaining_lt (hj : s.JoinedEnded) (h : Move b fetcher s s') :
    s'.remaining < s.remaining := by
  cases h with
  | own hl h => exact remaining_lt_of_transition hj h (Label.isInner_of_isOwn hl)
  | finish _ _ _ h =>
    have hlt := remaining_lt_of_transition (joinedEnded_cancel_if hj) h rfl
    rwa [remaining_cancel_if] at hlt

/-- Moves are made of steps, and fetches end as planned in them. -/
theorem Move.exists_run (h : Move b fetcher s s') :
    ∃ labels, run b s labels = some s' ∧ PlannedRun b fetcher s labels := by
  cases h with
  | @own label _ hl h =>
    refine ⟨[label], by simp [run, step_eq_some_iff.mpr h], plannedRun_of_polled ?_⟩
    intro i outcome hmem
    cases List.mem_singleton.mp hmem
    cases hl
  | @finish i w since stop _ hw hp hstop h =>
    have hends : EndsAsPlanned b fetcher s i ((w.fetchSince b fetcher since).outcome stop) :=
      ⟨w, since, stop, hw, hp, hstop, rfl⟩
    have hstep := step_eq_some_iff.mpr h
    -- what the fetch cancels it cancels in the poll that ends it
    split at hstep
    · refine ⟨[.cancel b.scope.token, .finish i ((w.fetchSince b fetcher since).outcome stop)], ?_,
        plannedRun_of_polled fun j outcome hmem => ?_⟩
      · show (step b (s.cancel b.scope.token) _).bind (fun s => run b s []) = some s'
        rw [hstep]
        rfl
      · simp only [List.mem_cons, Label.finish.injEq, List.not_mem_nil, or_false,
          reduceCtorEq, false_or] at hmem
        obtain ⟨rfl, rfl⟩ := hmem
        exact hends
    · refine ⟨[.finish i ((w.fetchSince b fetcher since).outcome stop)], by simp [run, hstep],
        plannedRun_of_polled fun j outcome hmem => ?_⟩
      cases List.mem_singleton.mp hmem
      exact hends

theorem Moves.joinedEnded (hj : s.JoinedEnded) (h : Moves b fetcher s s') : s'.JoinedEnded := by
  induction h with
  | refl => exact hj
  | tail _ hmove ih => exact hmove.joinedEnded ih

/-- Any number of moves are a run, and fetches end as planned in it. -/
theorem Moves.exists_run (h : Moves b fetcher s s') :
    ∃ labels, run b s labels = some s' ∧ PlannedRun b fetcher s labels := by
  induction h with
  | refl => exact ⟨[], rfl, plannedRun_of_polled nofun⟩
  | tail _ hmove ih =>
    obtain ⟨before, hbefore, hplanned⟩ := ih
    obtain ⟨after, hafter, hplanned'⟩ := hmove.exists_run
    refine ⟨before ++ after, ?_, hplanned.append hbefore hplanned'⟩
    rw [run_append, hbefore]
    exact hafter

/-- **Moves use up work**, if there are any. -/
theorem Moves.eq_or_remaining_lt (hj : s.JoinedEnded) (h : Moves b fetcher s s') :
    s' = s ∨ s'.remaining < s.remaining := by
  induction h with
  | refl => exact .inl rfl
  | tail hmoves hmove ih =>
    have hlt := hmove.remaining_lt (Moves.joinedEnded hj hmoves)
    rcases ih with rfl | hlt'
    · exact .inr hlt
    · exact .inr (Nat.lt_trans hlt hlt')

/-- There is no way back. -/
theorem Moves.antisymm (hj : s.JoinedEnded) (h : Moves b fetcher s s') (h' : Moves b fetcher s' s) :
    s' = s := by
  rcases h.eq_or_remaining_lt hj with heq | hlt
  · exact heq
  · rcases h'.eq_or_remaining_lt (h.joinedEnded hj) with heq | hlt'
    · exact heq.symm
    · exact absurd (Nat.lt_trans hlt hlt') (Nat.lt_irrefl _)

/-! ## The turn of a worker

In its turn a worker makes moves as long as it can, and four are the most that it ever makes. Who
makes none is idle. -/

/-- A worker in a phase can do nothing now: its fetch goes on, it waits for the slot, or it has
ended. -/
def Worker.IsIdle (b : Setup) (fetcher : Fetcher) (s : State) (w : Worker) : Phase → Prop
  | .fetching since => (w.fetchSince b fetcher since).stop? b.scope s.forest s.now = none
  | .fetched _ | .offering _ => s.slot ≠ none
  | phase => phase.isEnded = true

/-- The worker at an index can do nothing now. -/
def Idle (b : Setup) (fetcher : Fetcher) (s : State) (i : Nat) : Prop :=
  ∀ w, s.workers[i]? = some w → w.IsIdle b fetcher s w.phase

theorem takeAll_single (h : Transition b s label s') : takeAll b s [label] = s' := by
  simp only [takeAll, step_eq_some_iff.mpr h]

/-- **A worker moves if it can.** -/
theorem act_cases (b : Setup) (fetcher : Fetcher) (s : State) (i : Nat) :
    Move b fetcher s (act b fetcher s i) ∨
      act b fetcher s i = s ∧ Idle b fetcher s i := by
  cases hw : s.workers[i]? with
  | none =>
    refine .inr ⟨by simp [act, workerNext, hw, takeAll], fun w hw' => ?_⟩
    rw [hw] at hw'
    cases hw'
  | some w =>
    have hidle : w.IsIdle b fetcher s w.phase → Idle b fetcher s i := by
      intro h v hv
      obtain rfl : w = v := Option.some.inj (hw.symm.trans hv)
      exact h
    have hsingle {label : Label} {s' : State} (hnext : workerNext b fetcher s i = [label])
        (hl : label.isOwn = true) (h : Transition b s label s') :
        Move b fetcher s (act b fetcher s i) := by
      -- all that a worker does next is this one step
      rw [act, hnext, takeAll_single h]
      exact .own hl h
    have hnone (hnext : workerNext b fetcher s i = []) : act b fetcher s i = s := by
      rw [act, hnext, takeAll]
    have htaken {fragment : Fragment} (hslot : s.slot = some fragment) : s.slot ≠ none := by
      rw [hslot]
      exact Option.some_ne_none _
    -- the phase decides what comes next; each case is one step or a reason to be idle
    cases hp : w.phase with
    | waiting =>
      exact .inl (hsingle (by simp only [workerNext, hw, hp]) rfl (.fetch hw hp))
    | fetching since =>
      cases hstop : (w.fetchSince b fetcher since).stop? b.scope s.forest s.now with
      | none =>
        rw [hp] at hidle
        exact .inr ⟨hnone (by simp only [workerNext, hw, hp, hstop]), hidle hstop⟩
      | some stop =>
        left
        obtain ⟨s', h⟩ := exists_finish_transition (b := b)
          (s := if (w.fetchSince b fetcher since).cancelsScope stop then s.cancel b.scope.token
            else s) (i := i) (w := w) (by split <;> exact hw) hp
          ((w.fetchSince b fetcher since).outcome stop)
        -- cancelling its scope is part of how the fetch ends
        have hact : act b fetcher s i = s' := by
          simp only [act, workerNext, hw, hp, hstop]
          by_cases hc : (w.fetchSince b fetcher since).cancelsScope stop = true
          · rw [if_pos hc] at h ⊢
            show takeAll b (s.cancel b.scope.token)
              [.finish i ((w.fetchSince b fetcher since).outcome stop)] = s'
            exact takeAll_single h
          · rw [if_neg hc] at h ⊢
            exact takeAll_single h
        rw [hact]
        exact .finish hw hp hstop h
    | fetched data =>
      cases hc : s.forest.isCancelled b.scope.token with
      | true =>
        exact .inl (hsingle (by simp [workerNext, hw, hp, hc]) rfl (.withdraw hw hp hc))
      | false =>
        cases hslot : s.slot with
        | none => exact .inl (hsingle (by simp [workerNext, hw, hp, hslot]) rfl (.offer hw hp hc))
        | some fragment =>
          rw [hp] at hidle
          exact .inr ⟨hnone (by simp [workerNext, hw, hp, hc, hslot]), hidle (htaken hslot)⟩
    | offering data =>
      cases hslot : s.slot with
      | none =>
        exact .inl (hsingle (by simp only [workerNext, hw, hp]) rfl (.publish hw hp hslot))
      | some fragment =>
        have hstuck : step b s (.publish i) = none := by simp [step, publishStep, hw, hp, hslot]
        rw [hp] at hidle
        refine .inr ⟨?_, hidle (htaken hslot)⟩
        simp only [act, workerNext, hw, hp, takeAll, hstuck]
    | failing cause alarm =>
      cases alarm with
      | keep error =>
        exact .inl (hsingle (by simp only [workerNext, hw, hp]) rfl (.keepFailure hw hp))
      | callOff =>
        exact .inl (hsingle (by simp only [workerNext, hw, hp]) rfl (.callOffFailure hw hp))
    | withdrawing data error =>
      exact .inl (hsingle (by simp only [workerNext, hw, hp]) rfl (.keepWithdrawal hw hp))
    | published | failed | unpublished | crashed =>
      rw [hp] at hidle
      exact .inr ⟨hnone (by simp only [workerNext, hw, hp]), hidle rfl⟩

/-- What a worker does next is a move or nothing. -/
theorem moves_act (b : Setup) (fetcher : Fetcher) (s : State) (i : Nat) :
    Moves b fetcher s (act b fetcher s i) := by
  rcases act_cases b fetcher s i with hmove | ⟨heq, -⟩
  · exact .single hmove
  · rw [heq]

/-- A turn is made of moves. -/
theorem moves_workerTurn (b : Setup) (fetcher : Fetcher) (s : State) (i : Nat) :
    Moves b fetcher s (workerTurn b fetcher s i) := by
  rw [workerTurn]
  induction turnLength with
  | zero => exact .refl
  | succ n ih => exact ih.trans (moves_act b fetcher _ i)

/-- A turn that changes nothing is the turn of an idle worker. -/
theorem idle_of_workerTurn_eq (hj : s.JoinedEnded) (h : workerTurn b fetcher s i = s) :
    Idle b fetcher s i := by
  rcases act_cases b fetcher s i with hmove | ⟨-, hidle⟩
  · exfalso
    -- a turn is four moves at most, and the other three cannot undo the first
    have hback : Moves b fetcher (act b fetcher s i) s := by
      have hrest : Moves b fetcher (act b fetcher s i) (workerTurn b fetcher s i) :=
        ((moves_act b fetcher _ i).trans (moves_act b fetcher _ i)).trans (moves_act b fetcher _ i)
      rwa [h] at hrest
    have hlt := hmove.remaining_lt hj
    rw [Moves.antisymm hj (.single hmove) hback] at hlt
    exact Nat.lt_irrefl _ hlt
  · exact hidle

/-- The turns of several workers are made of moves. -/
theorem moves_foldl_workerTurn (b : Setup) (fetcher : Fetcher) (indices : List Nat) (s : State) :
    Moves b fetcher s (indices.foldl (workerTurn b fetcher) s) := by
  induction indices generalizing s with
  | nil => exact .refl
  | cons i indices ih => exact (moves_workerTurn b fetcher s i).trans (ih _)

/-- A round that changes nothing is a round of turns that change nothing. -/
theorem workerTurn_eq_of_foldl_eq (hj : s.JoinedEnded) {indices : List Nat}
    (h : indices.foldl (workerTurn b fetcher) s = s) :
    ∀ i ∈ indices, workerTurn b fetcher s i = s := by
  induction indices with
  | nil => nofun
  | cons i indices ih =>
    -- the turns of the others would lead back to where this one began
    have hback : Moves b fetcher (workerTurn b fetcher s i) s := by
      have hrest := moves_foldl_workerTurn b fetcher indices (workerTurn b fetcher s i)
      rwa [← List.foldl_cons, h] at hrest
    have heq := Moves.antisymm hj (moves_workerTurn b fetcher s i) hback
    rw [List.foldl_cons, heq] at h
    intro j hmem
    rcases List.mem_cons.mp hmem with rfl | hmem
    · exact heq
    · exact ih h j hmem

theorem moves_workersTurn (b : Setup) (fetcher : Fetcher) (s : State) :
    Moves b fetcher s (workersTurn b fetcher s) :=
  (moves_foldl_workerTurn b fetcher _ s).trans (moves_foldl_workerTurn b fetcher _ _)

/-- If a round changes nothing, everybody is idle. -/
theorem idle_of_workersTurn_eq (hj : s.JoinedEnded) (h : workersTurn b fetcher s = s) (i : Nat) :
    Idle b fetcher s i := by
  have hback := moves_foldl_workerTurn b fetcher (List.range s.workers.length)
    (((List.range s.workers.length).filter (isDue b fetcher s)).foldl (workerTurn b fetcher) s)
  have hfirst := moves_foldl_workerTurn b fetcher
    ((List.range s.workers.length).filter (isDue b fetcher s)) s
  have hall : workersTurn b fetcher s = (List.range s.workers.length).foldl (workerTurn b fetcher)
    (((List.range s.workers.length).filter (isDue b fetcher s)).foldl (workerTurn b fetcher) s) := rfl
  rw [← hall, h] at hback
  rw [hall, Moves.antisymm hj hfirst hback] at h
  intro w hw
  obtain ⟨hi, -⟩ := List.getElem?_eq_some_iff.mp hw
  exact idle_of_workerTurn_eq hj
    (workerTurn_eq_of_foldl_eq hj h i (List.mem_range.mpr hi)) w hw

/-! ## The turn of the collector

The collector goes on as long as it finds something to do. It looks at its alarm first, then at the
deadline, the slot, the workers to be joined, and the channel. -/

/-- What the collector does next is a step of the batch. -/
theorem isOwn_of_collectorNext (h : collectorNext b s = some label) : label.isOwn = true := by
  unfold collectorNext at h
  split at h
  · cases h; rfl
  · cases h; rfl
  · split at h
    · cases h; rfl
    · split at h
      · cases h; rfl
      · split at h
        · cases h; rfl
        · split at h
          · cases h; rfl
          · cases h

theorem move_of_collectorNext (h : (collectorNext b s).bind (step b s) = some s') :
    Move b fetcher s s' := by
  obtain ⟨label, hnext, hstep⟩ := Option.bind_eq_some_iff.mp h
  exact .own (isOwn_of_collectorNext hnext) (transition_of_step hstep)

/-- The turn of the collector is made of moves. -/
theorem moves_collectorTurn (b : Setup) (fetcher : Fetcher) (s : State) :
    Moves b fetcher s (collectorTurn b s) := by
  induction hn : s.remaining using Nat.strongRecOn generalizing s with
  | ind n ih =>
    rw [collectorTurn]
    split
    · exact .refl
    · rename_i next hnext
      have hmove : Move b fetcher s next := move_of_collectorNext hnext
      split
      · rename_i hlt
        exact .head hmove (ih next.remaining (hn ▸ hlt) next rfl)
      · exact .single hmove

/-- A turn that changes nothing is the turn of a collector that can do nothing. -/
theorem collectorNext_of_collectorTurn_eq (fetcher : Fetcher) (hj : s.JoinedEnded)
    (h : collectorTurn b s = s) : (collectorNext b s).bind (step b s) = none := by
  cases hnext : (collectorNext b s).bind (step b s) with
  | none => rfl
  | some next =>
    exfalso
    have hmove : Move b fetcher s next := move_of_collectorNext hnext
    -- the step uses up work, and the rest of the turn does not give it back
    have hlt := hmove.remaining_lt hj
    have hback := moves_collectorTurn b fetcher next
    rw [collectorTurn, hnext] at h
    simp only [if_pos hlt] at h
    rw [h] at hback
    rw [Moves.antisymm hj (.single hmove) hback] at hlt
    exact Nat.lt_irrefl _ hlt

/-! ## Settling

Turns go on until a whole round brings nothing new. Since moves use up work, that is soon the case.
-/

/-- Nobody can do anything more at this instant. -/
structure Quiet (b : Setup) (fetcher : Fetcher) (s : State) : Prop where
  collector : (collectorNext b s).bind (step b s) = none
  idle : ∀ i, Idle b fetcher s i

/-- **Settling takes moves, and ends where it is quiet.** -/
theorem settle_spec (hj : s.JoinedEnded) :
    Moves b fetcher s (settle b fetcher s) ∧ Quiet b fetcher (settle b fetcher s) := by
  induction hn : s.remaining using Nat.strongRecOn generalizing s with
  | ind n ih =>
    have hcollector := moves_collectorTurn b fetcher s
    have hworkers := moves_workersTurn b fetcher (collectorTurn b s)
    have hmoves := hcollector.trans hworkers
    rw [settle]
    split
    · rename_i hlt
      obtain ⟨hrest, hquiet⟩ := ih _ (hn ▸ hlt) (Moves.joinedEnded hj hmoves) rfl
      exact ⟨hmoves.trans hrest, hquiet⟩
    · rename_i hge
      -- no work was used up, so neither turn has done anything
      have heq := (Moves.eq_or_remaining_lt hj hmoves).resolve_right hge
      have hcollector' : collectorTurn b s = s :=
        Moves.antisymm hj hcollector (by rwa [heq] at hworkers)
      rw [hcollector'] at heq hmoves ⊢
      rw [heq]
      exact ⟨.refl, collectorNext_of_collectorTurn_eq fetcher hj hcollector',
        idle_of_workersTurn_eq hj heq⟩

/-! ## What it looks like when it is quiet

If nobody can move, nothing waits for the collector, and a worker that has not ended is in the midst
of its fetch. -/

/-- Who could take a step is not the collector of a quiet batch. -/
theorem Quiet.collectorNext_ne (hq : Quiet b fetcher s) (h : Transition b s label s') :
    collectorNext b s ≠ some label := by
  intro hnext
  have hnone := hq.collector
  rw [hnext, Option.bind_some, step_eq_some_iff.mpr h] at hnone
  cases hnone

/-- There is no alarm in a quiet batch. -/
theorem Quiet.alarm_eq_none (hq : Quiet b fetcher s) : s.alarm = none := by
  cases ha : s.alarm with
  | none => rfl
  | some alarm =>
    cases alarm with
    | keep error => exact absurd (by simp [collectorNext, ha]) (hq.collectorNext_ne (.keepAlarm ha))
    | callOff => exact absurd (by simp [collectorNext, ha]) (hq.collectorNext_ne (.callOffAlarm ha))

/-- The deadline of a quiet batch was seen or is still to come. -/
theorem Quiet.expireStep_eq_none (hq : Quiet b fetcher s) : expireStep b s = none := by
  cases hexpire : expireStep b s with
  | none => rfl
  | some next =>
    have h : Transition b s .expire next := transition_of_step hexpire
    exact absurd (by simp [collectorNext, hq.alarm_eq_none, hexpire]) (hq.collectorNext_ne h)

/-- The slot of a quiet batch is free. -/
theorem Quiet.slot_eq_none (hq : Quiet b fetcher s) : s.slot = none := by
  cases hslot : s.slot with
  | none => rfl
  | some fragment =>
    have ha := hq.alarm_eq_none
    have hexpire := hq.expireStep_eq_none
    exact absurd (by simp [collectorNext, ha, hexpire, hslot])
      (hq.collectorNext_ne (.collect hslot ha))

/-- Who has ended in a quiet batch has been joined. -/
theorem Quiet.isJoined (hq : Quiet b fetcher s) (hw : s.workers[i]? = some w)
    (he : w.phase.isEnded = true) : w.isJoined = true := by
  by_contra hopen
  have ha := hq.alarm_eq_none
  cases hfind : s.workers.findIdx? fun w => w.phase.isEnded && !w.isJoined with
  | none =>
    have := List.findIdx?_eq_none_iff.mp hfind w (List.mem_of_getElem? hw)
    simp [he, hopen] at this
  | some j =>
    -- the first worker that can be joined would be
    obtain ⟨hj, hguard, -⟩ := List.findIdx?_eq_some_iff_getElem.mp hfind
    simp only [Bool.and_eq_true, Bool.not_eq_true'] at hguard
    obtain ⟨next, h⟩ := exists_join_transition (b := b) (List.getElem?_eq_getElem hj) ha hguard.1
      hguard.2
    exact absurd
      (by simp only [collectorNext, ha, hq.expireStep_eq_none, hq.slot_eq_none, hfind]; rfl)
      (hq.collectorNext_ne h)

/-- **In a quiet batch a worker is in the midst of its fetch, or it has been joined.** -/
theorem Quiet.worker (hq : Quiet b fetcher s) (hw : s.workers[i]? = some w) :
    (∃ since, w.phase = .fetching since ∧
      (w.fetchSince b fetcher since).stop? b.scope s.forest s.now = none) ∨
    w.phase.isEnded = true ∧ w.isJoined = true := by
  have hidle := hq.idle i w hw
  cases hp : w.phase with
  | fetching since =>
    rw [hp] at hidle
    exact .inl ⟨since, rfl, hidle⟩
  | fetched data | offering data =>
    rw [hp] at hidle
    exact absurd hq.slot_eq_none hidle
  | waiting | failing | withdrawing => rw [hp] at hidle; cases hidle
  | published | failed | unpublished | crashed =>
    exact .inr ⟨rfl, hq.isJoined hw (by rw [hp]; rfl)⟩

/-- **A quiet batch is finished exactly if all workers have ended.** -/
theorem Quiet.isFinished_iff (hq : Quiet b fetcher s) (hj : s.JoinedEnded) :
    s.isFinished = true ↔
      ∀ (i : Nat) (w : Worker), s.workers[i]? = some w → w.phase.isEnded = true := by
  rw [Batch.isFinished_iff]
  constructor
  · rintro ⟨-, hjoined, -⟩ i w hw
    exact hj i w hw (hjoined w (List.mem_of_getElem? hw))
  · intro hended
    have hjoined : ∀ w ∈ s.workers, w.isJoined = true := by
      intro w hmem
      obtain ⟨i, hw⟩ := List.mem_iff_getElem?.mp hmem
      exact hq.isJoined hw (hended i w hw)
    -- the collector would close a channel that is still open
    refine ⟨?_, hjoined, hq.alarm_eq_none⟩
    by_contra hopen
    have ho : s.isOpen = true := by simpa using hopen
    have he := allEnded_iff.mpr hended
    have hfind : (s.workers.findIdx? fun w => w.phase.isEnded && !w.isJoined) = none := by
      rw [List.findIdx?_eq_none_iff]
      intro w hmem
      simp [hjoined w hmem]
    have hnext : collectorNext b s = some .close := by
      simp only [collectorNext, hq.alarm_eq_none, hq.expireStep_eq_none, hq.slot_eq_none, hfind, ho,
        he]
      rfl
    exact hq.collectorNext_ne (.close hq.alarm_eq_none ho hq.slot_eq_none he) hnext

end EdgeInclude.Batch
