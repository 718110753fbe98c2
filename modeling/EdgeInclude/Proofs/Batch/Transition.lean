import Mathlib.Data.List.Induction
import EdgeInclude.Batch.Resolver

/-!
# Transitions of a batch

`Batch.step` computes the state after a step. `Transition` says the same as a relation with one
constructor for each thing that can happen, guards included, so that a fact about every step is
proved by cases on what happened. `step_eq_some_iff` ties the two together.

* **`run_append`**, **`run_concat`**: runs compose, and a run can be read from its end.
* **`run_induction`**: what holds at first and is kept by every transition holds after every run.
* **`remaining_lt_of_transition`**: all steps but those of the world outside use up work.
-/

namespace EdgeInclude.Batch

open Cancellation

/-- What one step can do to a batch. -/
inductive Transition (b : Setup) (s : State) : Label → State → Prop where
  | elapse {instant : Instant} (hle : s.now ≤ instant) :
      Transition b s (.elapse instant) { s with now := instant }
  | cancel (t : Token) : Transition b s (.cancel t) (s.cancel t)
  | fetch {i : Nat} {w : Worker} (hw : s.workers[i]? = some w) (hp : w.phase = .waiting) :
      Transition b s (.fetch i)
        { s.setWorker i { w with phase := .fetching s.now } with
          calls := s.calls ++ [⟨i, w.timeout⟩] }
  | bytes {i : Nat} {w : Worker} {since : Instant} {data : Bytes}
      (hw : s.workers[i]? = some w) (hp : w.phase = .fetching since) :
      Transition b s (.finish i (.bytes data)) (s.setWorker i { w with phase := .fetched data })
  | fail {i : Nat} {w : Worker} {since : Instant} {cause : FetchError}
      (hw : s.workers[i]? = some w) (hp : w.phase = .fetching since) :
      Transition b s (.finish i (.failed cause))
        ((s.setWorker i { w with
            phase := .failing cause (.keep (s.fetchError b (State.tagRef i w) cause)) }).report
          (.fetchFailed (State.tagRef i w) (s.fetchError b (State.tagRef i w) cause)))
  | crash {i : Nat} {w : Worker} {since : Instant} {message : Option String}
      (hw : s.workers[i]? = some w) (hp : w.phase = .fetching since) :
      Transition b s (.finish i (.crashed message))
        (s.setWorker i { w with phase := .crashed message })
  | offer {i : Nat} {w : Worker} {data : Bytes}
      (hw : s.workers[i]? = some w) (hp : w.phase = .fetched data)
      (hc : s.forest.isCancelled b.scope.token = false) :
      Transition b s (.offer i) (s.setWorker i { w with phase := .offering data })
  | withdraw {i : Nat} {w : Worker} {data : Bytes}
      (hw : s.workers[i]? = some w) (hp : w.phase = .fetched data)
      (hc : s.forest.isCancelled b.scope.token = true) :
      Transition b s (.offer i)
        ((s.setWorker i { w with
            phase := .withdrawing data
              (.cancelled (s.cancelReason b) (some (State.tagRef i w))) }).report
          (.fetchCancelled (State.tagRef i w) (s.cancelReason b)))
  | publish {i : Nat} {w : Worker} {data : Bytes}
      (hw : s.workers[i]? = some w) (hp : w.phase = .offering data) (hslot : s.slot = none) :
      Transition b s (.publish i)
        { s.setWorker i { w with phase := .published data } with
          slot := some { w.tag.fragment with data } }
  | collect {fragment : Fragment} (hslot : s.slot = some fragment) (ha : s.alarm = none) :
      Transition b s .collect { s with slot := none, collected := s.collected ++ [fragment] }
  | close (ha : s.alarm = none) (ho : s.isOpen = true) (hslot : s.slot = none)
      (he : s.allEnded = true) : Transition b s .close { s with isOpen := false }
  | join {i : Nat} {w : Worker} (hw : s.workers[i]? = some w) (ha : s.alarm = none)
      (he : w.phase.isEnded = true) (hc : ∀ message, w.phase ≠ .crashed message)
      (hj : w.isJoined = false) :
      Transition b s (.join i) (s.setWorker i { w with isJoined := true })
  | joinCrashed {i : Nat} {w : Worker} {message : Option String}
      (hw : s.workers[i]? = some w) (ha : s.alarm = none) (hp : w.phase = .crashed message)
      (hj : w.isJoined = false) :
      Transition b s (.join i)
        ({ s.setWorker i { w with isJoined := true } with
            tasks := s.tasks.filter fun entry => entry.1 ≠ w.task
            alarm := some (.keep (.worker ((s.tasks.lookup w.task).getD ⟨0, ""⟩)
              (crashMessage message))) }.report
          (.workerFailed ((s.tasks.lookup w.task).getD ⟨0, ""⟩) (crashMessage message)))
  | expire (ha : s.alarm = none) (ho : b.scope.isOverdue s.now = true)
      (hx : s.isExpired = false) (hf : s.isFinished = false) :
      Transition b s .expire
        ({ s with
            isExpired := true
            alarm := some (.keep (.cancelled .deadline none)) }.report
          (.deadlineExceeded s.workers.length s.collected.length))
  | keepFailure {i : Nat} {w : Worker} {cause : FetchError} {error : BatchError}
      (hw : s.workers[i]? = some w) (hp : w.phase = .failing cause (.keep error)) :
      Transition b s (.keep (.worker i))
        ((s.setWorker i { w with phase := .failing cause .callOff }).keep error)
  | keepWithdrawal {i : Nat} {w : Worker} {data : Bytes} {error : BatchError}
      (hw : s.workers[i]? = some w) (hp : w.phase = .withdrawing data error) :
      Transition b s (.keep (.worker i))
        ((s.setWorker i { w with phase := .unpublished data }).keep error)
  | keepAlarm {error : BatchError} (ha : s.alarm = some (.keep error)) :
      Transition b s (.keep .collector) ({ s with alarm := some .callOff }.keep error)
  | callOffFailure {i : Nat} {w : Worker} {cause : FetchError}
      (hw : s.workers[i]? = some w) (hp : w.phase = .failing cause .callOff) :
      Transition b s (.callOff (.worker i))
        ((s.setWorker i { w with phase := .failed cause }).cancel b.scope.token)
  | callOffAlarm (ha : s.alarm = some .callOff) :
      Transition b s (.callOff .collector) ({ s with alarm := none }.cancel b.scope.token)

variable {b : Setup} {s s' : State} {label : Label}

/-! ## The function and the relation agree

Each function of a step is taken apart once, here. What is proved elsewhere about a step is proved
by cases on the relation. -/

/-- A fetch ends in one of three ways. -/
theorem transition_of_finishStep {i : Nat} {w : Worker} {outcome : Outcome}
    (hw : s.workers[i]? = some w) (h : finishStep b s i w outcome = some s') :
    Transition b s (.finish i outcome) s' := by
  unfold finishStep at h
  split at h
  · rename_i since hp
    cases outcome with
    | bytes data => cases h; exact .bytes hw hp
    | failed cause => cases h; exact .fail hw hp
    | crashed message => cases h; exact .crash hw hp
  · cases h

/-- Who looks goes on or gives up. -/
theorem transition_of_offerStep {i : Nat} {w : Worker}
    (hw : s.workers[i]? = some w) (h : offerStep b s i w = some s') :
    Transition b s (.offer i) s' := by
  unfold offerStep at h
  split at h
  · rename_i data hp
    split at h
    · rename_i hc
      cases h
      exact .withdraw hw hp hc
    · rename_i hc
      cases h
      exact .offer hw hp (Bool.eq_false_iff.mpr hc)
  · cases h

/-- A fragment gets into the slot only if that is free. -/
theorem transition_of_publishStep {i : Nat} {w : Worker}
    (hw : s.workers[i]? = some w) (h : publishStep s i w = some s') :
    Transition b s (.publish i) s' := by
  unfold publishStep at h
  split at h
  · rename_i data hp
    cases hslot : s.slot with
    | some fragment => rw [hslot] at h; cases h
    | none =>
      rw [hslot] at h
      cases h
      exact .publish hw hp hslot
  · cases h

/-- A worker that is joined has broken down or it has not. -/
theorem transition_of_joinStep {i : Nat} {w : Worker}
    (hw : s.workers[i]? = some w) (h : joinStep s i w = some s') :
    Transition b s (.join i) s' := by
  unfold joinStep at h
  split at h
  · rename_i hguard
    simp only [Bool.and_eq_true, Option.isNone_iff_eq_none, Bool.not_eq_true'] at hguard
    obtain ⟨⟨ha, he⟩, hj⟩ := hguard
    split at h
    · rename_i message hp
      cases h
      exact .joinCrashed hw ha hp hj
    · rename_i hc
      cases h
      exact .join hw ha he hc hj
  · cases h

/-- Errors are kept by workers that failed, by workers that give up, and by the collector. -/
theorem transition_of_keepStep {who : Actor} (h : keepStep s who = some s') :
    Transition b s (.keep who) s' := by
  cases who with
  | worker i =>
    simp only [keepStep] at h
    obtain ⟨w, hw, h⟩ := Option.bind_eq_some_iff.mp h
    split at h
    · rename_i cause error hp
      cases h
      exact .keepFailure hw hp
    · rename_i data error hp
      cases h
      exact .keepWithdrawal hw hp
    · cases h
  | collector =>
    simp only [keepStep] at h
    split at h
    · rename_i error ha
      cases h
      exact .keepAlarm ha
    · cases h

/-- The batch is called off by workers that failed and by the collector. -/
theorem transition_of_callOffStep {who : Actor} (h : callOffStep b s who = some s') :
    Transition b s (.callOff who) s' := by
  cases who with
  | worker i =>
    simp only [callOffStep] at h
    obtain ⟨w, hw, h⟩ := Option.bind_eq_some_iff.mp h
    split at h
    · rename_i cause hp
      cases h
      exact .callOffFailure hw hp
    · cases h
  | collector =>
    simp only [callOffStep] at h
    split at h
    · rename_i ha
      cases h
      exact .callOffAlarm ha
    · cases h

/-- Every step that the function takes is a transition. -/
theorem transition_of_step (h : step b s label = some s') : Transition b s label s' := by
  cases label with
  | elapse instant =>
    simp only [step] at h
    split at h
    · rename_i hle; cases h; exact .elapse hle
    · cases h
  | cancel t => cases h; exact .cancel t
  | fetch i =>
    obtain ⟨w, hw, h⟩ := Option.bind_eq_some_iff.mp h
    unfold fetchStep at h
    split at h
    · rename_i hp; cases h; exact .fetch hw hp
    · cases h
  | finish i outcome =>
    obtain ⟨w, hw, h⟩ := Option.bind_eq_some_iff.mp h
    exact transition_of_finishStep hw h
  | offer i =>
    obtain ⟨w, hw, h⟩ := Option.bind_eq_some_iff.mp h
    exact transition_of_offerStep hw h
  | publish i =>
    obtain ⟨w, hw, h⟩ := Option.bind_eq_some_iff.mp h
    exact transition_of_publishStep hw h
  | collect =>
    simp only [step, collectStep] at h
    split at h
    · rename_i fragment hslot
      split at h
      · rename_i ha; cases h; exact .collect hslot (Option.isNone_iff_eq_none.mp ha)
      · cases h
    · cases h
  | close =>
    simp only [step, closeStep] at h
    split at h
    · rename_i hguard
      simp only [Bool.and_eq_true, Option.isNone_iff_eq_none] at hguard
      cases h
      exact .close hguard.1.1.1 hguard.1.1.2 hguard.1.2 hguard.2
    · cases h
  | join i =>
    obtain ⟨w, hw, h⟩ := Option.bind_eq_some_iff.mp h
    exact transition_of_joinStep hw h
  | expire =>
    simp only [step, expireStep] at h
    split at h
    · rename_i hguard
      simp only [Bool.and_eq_true, Option.isNone_iff_eq_none, Bool.not_eq_true'] at hguard
      cases h
      exact .expire hguard.1.1.1 hguard.1.1.2 hguard.1.2 hguard.2
    · cases h
  | keep who => exact transition_of_keepStep h
  | callOff who => exact transition_of_callOffStep h

/-- **The relation is the function.** -/
theorem step_eq_some_iff : step b s label = some s' ↔ Transition b s label s' := by
  refine ⟨transition_of_step, fun h => ?_⟩
  cases h with
  | elapse hle => simp [step, hle]
  | cancel t => rfl
  | fetch hw hp => simp [step, fetchStep, hw, hp]
  | bytes hw hp => simp [step, finishStep, hw, hp]
  | fail hw hp => simp [step, finishStep, hw, hp]
  | crash hw hp => simp [step, finishStep, hw, hp]
  | offer hw hp hc => simp [step, offerStep, hw, hp, hc]
  | withdraw hw hp hc => simp [step, offerStep, hw, hp, hc]
  | publish hw hp hslot => simp [step, publishStep, hw, hp, hslot]
  | collect hslot ha => simp [step, collectStep, hslot, ha]
  | close ha ho hslot he => simp [step, closeStep, ha, ho, hslot, he]
  | join hw ha he hc hj => simp [step, joinStep, hw, ha, he, hj]
  | joinCrashed hw ha hp hj => simp [step, joinStep, hw, ha, hp, hj, Phase.isEnded]
  | expire ha ho hx hf => simp [step, expireStep, ha, ho, hx, hf]
  | keepFailure hw hp => simp [step, keepStep, hw, hp]
  | keepWithdrawal hw hp => simp [step, keepStep, hw, hp]
  | keepAlarm ha => simp [step, keepStep, ha]
  | callOffFailure hw hp => simp [step, callOffStep, hw, hp]
  | callOffAlarm ha => simp [step, callOffStep, ha]

/-! ## How a batch begins

Everything about the first state is fixed by the page, the scope and the timeline. Only the deadline
can be missing: the clock may not be able to show it. -/

/-- The batch for a page as it begins, below the token of a scope. -/
def beginning (r : Resolver) (tags : List Include) (scope : Scope) (t : Timeline) : State :=
  { forest := (t.forest.child scope.token).2
    now := t.now
    workers := tags.mapIdx r.worker
    tasks := (tags.mapIdx r.worker).mapIdx fun i w => (w.task, State.tagRef i w) }

/-- A batch begins exactly if its deadline can be shown, and then there is one way to begin. -/
theorem start_eq_some_iff {r : Resolver} {tags : List Include} {scope : Scope} {t : Timeline}
    {s₀ : State} :
    r.start tags scope t = some (b, s₀) ↔
      ∃ deadline, scope.deadlineWithin? t.now r.batchDeadline = some deadline ∧
        b = { requestToken := scope.token
              scope := { scope with token := t.forest.nodes.length, deadline } } ∧
        s₀ = beginning r tags scope t := by
  have hdeadline : (scope.nested t.forest).1.deadlineWithin? t.now r.batchDeadline =
      scope.deadlineWithin? t.now r.batchDeadline := rfl
  unfold Resolver.start
  simp only [hdeadline]
  cases h : scope.deadlineWithin? t.now r.batchDeadline with
  | none => simp
  | some deadline =>
    simp only [Option.some.injEq, Prod.mk.injEq, exists_eq_left']
    constructor
    · rintro ⟨rfl, rfl⟩
      exact ⟨rfl, rfl⟩
    · rintro ⟨rfl, rfl⟩
      exact ⟨rfl, rfl⟩

/-! ## Runs

A run is a list of labels, read from the left. Facts about all runs are proved from the right end:
the last step comes after a shorter run. -/

/-- One run after the other is a run. -/
theorem run_append (s : State) (before after : List Label) :
    run b s (before ++ after) = (run b s before).bind fun s' => run b s' after := by
  induction before generalizing s with
  | nil => rfl
  | cons label labels ih =>
    simp only [List.cons_append, run]
    cases step b s label with
    | none => rfl
    | some next => exact ih next

/-- A run read from its end: one step after a shorter run. -/
theorem run_concat (s : State) (labels : List Label) (label : Label) :
    run b s (labels ++ [label]) = (run b s labels).bind fun s' => step b s' label := by
  rw [run_append]
  congr 1
  funext s'
  simp only [run]
  cases step b s' label <;> rfl

/-- **Induction over runs.** What holds of the empty run and is kept when a transition follows holds
of every run. The induction is on the labels, read from the end. -/
theorem run_induction {s₀ : State} {motive : List Label → State → Prop}
    (start : motive [] s₀)
    (transition : ∀ labels s label s', run b s₀ labels = some s → motive labels s →
      Transition b s label s' → motive (labels ++ [label]) s')
    {labels : List Label} (h : run b s₀ labels = some s) : motive labels s := by
  -- the last step is split off, so that a property of the run can speak of what came before
  induction labels using List.reverseRecOn generalizing s with
  | nil => cases h; exact start
  | append_singleton labels label ih =>
    rw [run_concat] at h
    obtain ⟨before, hbefore, hstep⟩ := Option.bind_eq_some_iff.mp h
    exact transition labels before label s hbefore (ih hbefore) (transition_of_step hstep)

/-! ## Workers after a step

Most steps change one worker. What is asked of all workers is then asked of the changed one, and of
the others as they were. -/

/-- What holds of all workers holds of all of them after one was replaced by a worker of which it
holds. -/
theorem forall_worker_set {workers : List Worker} {i : Nat} {w' : Worker}
    {P : Nat → Worker → Prop} (hothers : ∀ j w, workers[j]? = some w → P j w) (hself : P i w') :
    ∀ j w, (workers.set i w')[j]? = some w → P j w := by
  intro j w hj
  rw [List.getElem?_set] at hj
  split at hj
  · rename_i hij
    subst hij
    split at hj
    · cases hj; exact hself
    · cases hj
  · exact hothers j w hj

theorem getElem?_worker_set {workers : List Worker} {i : Nat} {w : Worker}
    (hw : workers[i]? = some w) (w' : Worker) : (workers.set i w')[i]? = some w' := by
  obtain ⟨hi, -⟩ := List.getElem?_eq_some_iff.mp hw
  rw [List.getElem?_set_self hi]

/-- What holds of a worker holds of the worker at its index when one of them is changed, if the
change keeps it. -/
theorem exists_worker_set {workers : List Worker} {i j : Nat} {w v v' : Worker}
    {p : Worker → Prop} (hw : workers[i]? = some w) (hp : p w) (hv : workers[j]? = some v)
    (hself : p v → p v') : ∃ w', (workers.set j v')[i]? = some w' ∧ p w' := by
  by_cases hij : j = i
  · subst hij
    obtain rfl : w = v := Option.some.inj (hw.symm.trans hv)
    exact ⟨v', getElem?_worker_set hw v', hself hp⟩
  · refine ⟨w, ?_, hp⟩
    rw [List.getElem?_set_ne hij, hw]

/-- A list around one of its elements, and the list when that element is replaced. -/
theorem exists_set_split {α : Type} {l : List α} {i : Nat} {a : α} (ha : l[i]? = some a) :
    ∃ before after, l = before ++ a :: after ∧ ∀ a', l.set i a' = before ++ a' :: after := by
  obtain ⟨hi, rfl⟩ := List.getElem?_eq_some_iff.mp ha
  refine ⟨l.take i, l.drop (i + 1), ?_, fun a' => ?_⟩
  · rw [← List.drop_eq_getElem_cons hi, List.take_append_drop]
  · rw [List.set_eq_take_append_cons_drop, if_pos hi]

/-- An element that yields what the one in its place did changes nothing. -/
theorem filterMap_set_same {α β : Type} {f : α → Option β} {l : List α} {i : Nat} {a a' : α}
    (ha : l[i]? = some a) (h : f a' = f a) : (l.set i a').filterMap f = l.filterMap f := by
  obtain ⟨before, after, hsplit, hset⟩ := exists_set_split ha
  rw [hset, hsplit, List.filterMap_append, List.filterMap_append, List.filterMap_cons,
    List.filterMap_cons, h]

/-- An element in the place of one that yielded nothing adds what it yields. -/
theorem filterMap_set_new {α β : Type} {f : α → Option β} {l : List α} {i : Nat} {a : α} (a' : α)
    {y : β} (ha : l[i]? = some a) (h : f a = none) (h' : f a' = some y) :
    ((l.set i a').filterMap f).Perm (l.filterMap f ++ [y]) := by
  obtain ⟨before, after, hsplit, hset⟩ := exists_set_split ha
  rw [hset, hsplit, List.filterMap_append, List.filterMap_append, List.filterMap_cons_none h,
    List.filterMap_cons_some h', List.append_assoc]
  exact (List.perm_append_singleton y _).symm.append_left _

/-- What neither the phase of a worker nor its being joined counts for stays as it is. -/
theorem map_view_transition {α : Type} {view : Worker → α}
    (hview : ∀ (w : Worker) (phase : Phase) (isJoined : Bool),
      view { w with phase, isJoined } = view w)
    (h : Transition b s label s') : s'.workers.map view = s.workers.map view := by
  have hset {i : Nat} {w : Worker} (hw : s.workers[i]? = some w) (phase : Phase) (isJoined : Bool) :
      (s.workers.set i { w with phase, isJoined }).map view = s.workers.map view := by
    obtain ⟨before, after, hsplit, hset⟩ := exists_set_split hw
    rw [hset, hsplit, List.map_append, List.map_append, List.map_cons, List.map_cons, hview]
  cases h with
  | elapse | cancel | collect | close | expire | keepAlarm | callOffAlarm => rfl
  | fetch hw | bytes hw | fail hw | crash hw | offer hw | withdraw hw | publish hw | join hw
  | joinCrashed hw | keepFailure hw | keepWithdrawal hw | callOffFailure hw => exact hset hw _ _

/-! ## What can be done

The other way round: what a worker has come to, and what the collector sees, says which step can be
taken. -/

/-- A fetch can end with every outcome. -/
theorem exists_finish_transition {i : Nat} {w : Worker} {since : Instant}
    (hw : s.workers[i]? = some w) (hp : w.phase = .fetching since) (outcome : Outcome) :
    ∃ s', Transition b s (.finish i outcome) s' := by
  cases outcome with
  | bytes => exact ⟨_, .bytes hw hp⟩
  | failed => exact ⟨_, .fail hw hp⟩
  | crashed => exact ⟨_, .crash hw hp⟩

/-- A worker that has ended can be joined. -/
theorem exists_join_transition {i : Nat} {w : Worker} (hw : s.workers[i]? = some w)
    (ha : s.alarm = none) (he : w.phase.isEnded = true) (hj : w.isJoined = false) :
    ∃ s', Transition b s (.join i) s' := by
  by_cases hc : ∃ message, w.phase = .crashed message
  · obtain ⟨message, hp⟩ := hc
    exact ⟨_, .joinCrashed hw ha hp hj⟩
  · exact ⟨_, .join hw ha he (fun message hp => hc ⟨message, hp⟩) hj⟩

/-! ## Work that is left

A step of a worker or of the collector changes the summand of one worker, of the slot, of the
channel, of the deadline or of the alarm, and always to the lower. -/

/-- The work of one worker is a summand of the whole. -/
theorem total_remaining_set {workers : List Worker} {i : Nat} {w : Worker} (w' : Worker) (k : Nat)
    (hw : workers[i]? = some w) (hk : w'.remaining + k = w.remaining) :
    total Worker.remaining (workers.set i w') + k = total Worker.remaining workers := by
  obtain ⟨before, after, hsplit, hset⟩ := exists_set_split hw
  rw [hset, hsplit, total_append, total_append, total_cons, total_cons]
  omega

/-- The step is one of the batch, not of the world outside. -/
def Label.isInner : Label → Bool
  | elapse _ | cancel _ => false
  | _ => true

/-- Only workers that have ended are joined. -/
def State.JoinedEnded (s : State) : Prop :=
  ∀ (i : Nat) (w : Worker), s.workers[i]? = some w → w.isJoined = true → w.phase.isEnded = true

/-- No step joins a worker that has not ended, nor brings one back to work that was joined. -/
theorem joinedEnded_transition (hj : s.JoinedEnded) (h : Transition b s label s') :
    s'.JoinedEnded := by
  cases h with
  | elapse | cancel | collect | close | expire | keepAlarm | callOffAlarm => exact hj
  | join hw ha he => exact forall_worker_set hj fun _ => he
  | joinCrashed hw ha hp => exact forall_worker_set hj fun _ => by simp [hp, Phase.isEnded]
  | fetch hw hp | bytes hw hp | fail hw hp | offer hw hp | withdraw hw hp | keepFailure hw hp =>
    refine forall_worker_set hj fun hjoined => ?_
    have := hj _ _ hw hjoined
    rw [hp] at this
    cases this
  | crash | publish | keepWithdrawal | callOffFailure => exact forall_worker_set hj fun _ => rfl

/-- When a worker goes on to a phase in which less is left to do, the total falls by the
difference. -/
theorem State.JoinedEnded.total_setPhase (hj : s.JoinedEnded) {i : Nat} {w : Worker} (next : Phase)
    (k : Nat) (hw : s.workers[i]? = some w) (he : w.phase.isEnded = false)
    (hk : next.remaining + k = w.phase.remaining) :
    total Worker.remaining (s.workers.set i { w with phase := next }) + k =
      total Worker.remaining s.workers := by
  have hopen : w.isJoined = false := by
    cases hjoined : w.isJoined with
    | false => rfl
    | true => rw [hj i w hw hjoined] at he; cases he
  exact total_remaining_set _ k hw (by simp [Worker.remaining, hopen, hk])

/-- The work that is left, as a sum in which each part stands for itself. -/
theorem remaining_eq (s : State) :
    s.remaining = total Worker.remaining s.workers + s.slot.isSome.toNat + s.isOpen.toNat +
      3 * (!s.isExpired).toNat + (s.alarm.map Alarm.remaining).getD 0 := by
  unfold State.remaining
  cases s.slot <;> cases s.isOpen <;> cases s.isExpired <;> simp

/-- **Steps of the batch use up work.** -/
theorem remaining_lt_of_transition (hj : s.JoinedEnded) (h : Transition b s label s')
    (hl : label.isInner = true) : s'.remaining < s.remaining := by
  rw [remaining_eq, remaining_eq]
  cases h with
  | elapse => cases hl
  | cancel => cases hl
  | fetch hw hp =>
    have htotal := hj.total_setPhase (.fetching s.now) 1 hw (by rw [hp]; rfl) (by rw [hp]; rfl)
    simp only [State.setWorker]
    omega
  | @bytes i w since data hw hp =>
    have htotal := hj.total_setPhase (.fetched data) 1 hw (by rw [hp]; rfl) (by rw [hp]; rfl)
    simp only [State.setWorker]
    omega
  | @fail i w since cause hw hp =>
    have htotal := hj.total_setPhase
      (.failing cause (.keep (s.fetchError b (State.tagRef i w) cause))) 3 hw
      (by rw [hp]; rfl) (by rw [hp]; rfl)
    simp only [State.report, State.setWorker]
    omega
  | @crash i w since message hw hp =>
    have htotal := hj.total_setPhase (.crashed message) 3 hw (by rw [hp]; rfl) (by rw [hp]; rfl)
    simp only [State.setWorker]
    omega
  | @offer i w data hw hp hc =>
    have htotal := hj.total_setPhase (.offering data) 1 hw (by rw [hp]; rfl) (by rw [hp]; rfl)
    simp only [State.setWorker]
    omega
  | @withdraw i w data hw hp hc =>
    have htotal := hj.total_setPhase
      (.withdrawing data (.cancelled (s.cancelReason b) (some (State.tagRef i w)))) 3 hw
      (by rw [hp]; rfl) (by rw [hp]; rfl)
    simp only [State.report, State.setWorker]
    omega
  | @publish i w data hw hp hslot =>
    -- what the worker has no longer to do pays for taking the fragment out of the slot
    have htotal := hj.total_setPhase (.published data) 3 hw (by rw [hp]; rfl) (by rw [hp]; rfl)
    simp only [State.setWorker, hslot, Option.isSome_some, Option.isSome_none, Bool.toNat_true,
      Bool.toNat_false]
    omega
  | collect hslot ha =>
    simp only [hslot, Option.isSome_some, Option.isSome_none, Bool.toNat_true, Bool.toNat_false]
    omega
  | close ha ho hslot he =>
    simp only [ho, Bool.toNat_true, Bool.toNat_false]
    omega
  | @join i w hw ha he hc hopen =>
    -- a worker that is joined counts for nothing any more
    have hpos : 0 < w.phase.remaining := by
      cases hp : w.phase <;> simp [Phase.remaining]
    have htotal := total_remaining_set { w with isJoined := true } w.phase.remaining hw
      (by simp [Worker.remaining, hopen])
    simp only [State.setWorker]
    omega
  | @joinCrashed i w message hw ha hp hopen =>
    -- what the worker counts for goes over to the alarm
    have htotal := total_remaining_set { w with isJoined := true } 3 hw
      (by simp [Worker.remaining, hp, hopen, Phase.remaining])
    simp only [State.report, State.setWorker, ha, Option.map_some, Option.map_none,
      Option.getD_some, Option.getD_none, Alarm.remaining]
    omega
  | expire ha ho hx hf =>
    simp only [State.report, ha, hx, Option.map_some, Option.map_none, Option.getD_some,
      Option.getD_none, Alarm.remaining, Bool.not_true, Bool.not_false, Bool.toNat_true,
      Bool.toNat_false]
    omega
  | @keepFailure i w cause error hw hp =>
    have htotal := hj.total_setPhase (.failing cause .callOff) 1 hw (by rw [hp]; rfl)
      (by rw [hp]; rfl)
    simp only [State.keep, State.setWorker]
    omega
  | @keepWithdrawal i w data error hw hp =>
    have htotal := hj.total_setPhase (.unpublished data) 1 hw (by rw [hp]; rfl) (by rw [hp]; rfl)
    simp only [State.keep, State.setWorker]
    omega
  | keepAlarm ha =>
    simp only [State.keep, ha, Option.map_some, Option.getD_some, Alarm.remaining]
    omega
  | @callOffFailure i w cause hw hp =>
    have htotal := hj.total_setPhase (.failed cause) 1 hw (by rw [hp]; rfl) (by rw [hp]; rfl)
    simp only [State.cancel, State.setWorker]
    omega
  | callOffAlarm ha =>
    simp only [State.cancel, ha, Option.map_some, Option.map_none, Option.getD_some,
      Option.getD_none, Alarm.remaining]
    omega

end EdgeInclude.Batch
