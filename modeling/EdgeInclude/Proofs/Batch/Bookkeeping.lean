import EdgeInclude.Proofs.Batch.Transition

/-!
# What a batch keeps track of

Facts that hold in every state of a run, whatever the order of its steps.

* **`Recorded`**: the phase of a worker tells how its fetch ended, and the run shows the same end
  and no other. That the collector saw the deadline is told by the run too.
* **`Channel`**: what was collected and what is in the slot are together the fragments that were
  handed over, each once. The channel is closed only when nothing is in it and nothing can come.
* **`Accounted`**: there is a first error exactly when something went wrong that was seen to. One
  direction says that no loss goes unnoticed, the other that no error comes from nowhere.
-/

namespace EdgeInclude.Batch

open Cancellation

variable {b : Setup} {s s' : State} {label : Label} {labels : List Label} {tags : List Include}

/-- How the fetch of a worker in a phase ended, if it has. -/
def Phase.outcome? : Phase → Option Outcome
  | waiting | fetching _ => none
  | fetched data | offering data | withdrawing data _ | published data | unpublished data =>
    some (.bytes data)
  | failing cause _ | failed cause => some (.failed cause)
  | crashed message => some (.crashed message)

/-- The fragment that a worker has handed over. -/
def Worker.delivered? (w : Worker) : Option Fragment :=
  match w.phase with
  | .published data => some { w.tag.fragment with data }
  | _ => none

/-- A worker in the phase has kept an error. -/
def Phase.hasKept : Phase → Bool
  | failing _ .callOff | failed _ | unpublished _ => true
  | _ => false

/-- The collector has met an error: the deadline, or a worker that broke down. -/
def State.CollectorMet (s : State) : Prop :=
  s.isExpired = true ∨
    ∃ (i : Nat) (w : Worker) (message : Option String),
      s.workers[i]? = some w ∧ w.isJoined = true ∧ w.phase = .crashed message

/-! ## Fetches and their ends

A fetch ends once. The phase of its worker tells from then on how, and so the labels of a run and
the last state say the same. -/

/-- The phases of the workers agree with the steps of the run. -/
structure Recorded (tags : List Include) (labels : List Label) (s : State) : Prop where
  map_tag : s.workers.map Worker.tag = tags
  finish_mem_iff : ∀ (i : Nat) (w : Worker), s.workers[i]? = some w →
    ∀ outcome, Label.finish i outcome ∈ labels ↔ w.phase.outcome? = some outcome
  expire_mem_iff : Label.expire ∈ labels ↔ s.isExpired = true

/-- A step that is no end of a fetch leaves every end as it was. -/
theorem outcome?_transition (h : Transition b s label s')
    (hl : ∀ i outcome, label ≠ .finish i outcome) :
    ∀ (i : Nat) (w' : Worker), s'.workers[i]? = some w' →
      ∃ w : Worker, s.workers[i]? = some w ∧ w'.phase.outcome? = w.phase.outcome? := by
  have hsame : ∀ (i : Nat) (w : Worker), s.workers[i]? = some w →
      ∃ v : Worker, s.workers[i]? = some v ∧ w.phase.outcome? = v.phase.outcome? :=
    fun i w hw => ⟨w, hw, rfl⟩
  cases h with
  | elapse | cancel | collect | close | expire | keepAlarm | callOffAlarm => exact hsame
  | bytes | fail | crash => exact absurd rfl (hl _ _)
  | fetch hw hp | offer hw hp | withdraw hw hp | publish hw hp | keepFailure hw hp
  | keepWithdrawal hw hp | callOffFailure hw hp =>
    exact forall_worker_set hsame ⟨_, hw, by rw [hp]; rfl⟩
  | join hw | joinCrashed hw => exact forall_worker_set hsame ⟨_, hw, rfl⟩

/-- The end of a fetch changes the worker at its index, whose fetch had not ended. -/
theorem finish_transition {i : Nat} {outcome : Outcome}
    (h : Transition b s (.finish i outcome) s') :
    ∃ w w' : Worker, s.workers[i]? = some w ∧ w.phase.outcome? = none ∧
      w'.phase.outcome? = some outcome ∧ s'.workers = s.workers.set i w' := by
  cases h with
  | bytes hw hp | fail hw hp | crash hw hp => exact ⟨_, _, hw, by rw [hp]; rfl, rfl, rfl⟩

/-- One more step keeps labels and phases in agreement. -/
theorem finish_mem_iff_transition
    (hi : ∀ (i : Nat) (w : Worker), s.workers[i]? = some w →
      ∀ outcome, Label.finish i outcome ∈ labels ↔ w.phase.outcome? = some outcome)
    (h : Transition b s label s') :
    ∀ (i : Nat) (w : Worker), s'.workers[i]? = some w →
      ∀ outcome, Label.finish i outcome ∈ labels ++ [label] ↔ w.phase.outcome? = some outcome := by
  by_cases hl : ∃ i outcome, label = .finish i outcome
  · obtain ⟨i, ended, rfl⟩ := hl
    obtain ⟨w, w', hw, hnone, hsome, hset⟩ := finish_transition h
    rw [hset]
    intro j v hv outcome
    rw [List.mem_append, List.mem_singleton, Label.finish.injEq]
    rw [List.getElem?_set] at hv
    split at hv
    · -- the worker itself: nothing was recorded of it before
      rename_i hij
      subst hij
      have hv' : v = w' := by
        split at hv
        · exact (Option.some.inj hv).symm
        · cases hv
      rw [hi i w hw outcome, hnone, hv', hsome]
      simp [eq_comm]
    · rename_i hij
      rw [hi j v hv outcome]
      simp [Ne.symm hij]
  · intro i w hw outcome
    obtain ⟨v, hv, houtcome⟩ :=
      outcome?_transition h (fun i outcome heq => hl ⟨i, outcome, heq⟩) i w hw
    rw [houtcome, ← hi i v hv outcome, List.mem_append, List.mem_singleton]
    refine ⟨fun hmem => hmem.resolve_right fun heq => hl ⟨i, outcome, heq.symm⟩, Or.inl⟩

/-- The same of the deadline. -/
theorem expire_mem_iff_transition (he : Label.expire ∈ labels ↔ s.isExpired = true)
    (h : Transition b s label s') :
    Label.expire ∈ labels ++ [label] ↔ s'.isExpired = true := by
  rw [List.mem_append, List.mem_singleton, he]
  cases h with
  | expire => simp [State.report]
  | _ => simp [State.setWorker, State.report, State.keep, State.cancel]

/-- Every step is recorded. -/
theorem recorded_transition (hr : Recorded tags labels s) (h : Transition b s label s') :
    Recorded tags (labels ++ [label]) s' where
  map_tag := (map_view_transition (fun _ _ _ => rfl) h).trans hr.map_tag
  finish_mem_iff := finish_mem_iff_transition hr.finish_mem_iff h
  expire_mem_iff := expire_mem_iff_transition hr.expire_mem_iff h

/-! ## Fragments on their way

A fragment that was handed over is in the slot or has been collected, and nothing else is. -/

/-- The test that all have ended is about each of them. -/
theorem allEnded_iff {s : State} :
    s.allEnded = true ↔
      ∀ (i : Nat) (w : Worker), s.workers[i]? = some w → w.phase.isEnded = true := by
  rw [State.allEnded, List.all_eq_true]
  refine ⟨fun h i w hw => h w (List.mem_of_getElem? hw), fun h w hw => ?_⟩
  obtain ⟨i, hi⟩ := List.mem_iff_getElem?.mp hw
  exact h i w hi

/-- The fragments that were handed over are on their way or have arrived, each once. -/
structure Channel (s : State) : Prop where
  joined : s.JoinedEnded
  perm : (s.collected ++ s.slot.toList).Perm (s.workers.filterMap Worker.delivered?)
  closed : s.isOpen = false → s.slot = none ∧ s.allEnded = true

/-- Fragments are moved on, and none is lost or doubled. -/
theorem perm_delivered_transition
    (hp : (s.collected ++ s.slot.toList).Perm (s.workers.filterMap Worker.delivered?))
    (h : Transition b s label s') :
    (s'.collected ++ s'.slot.toList).Perm (s'.workers.filterMap Worker.delivered?) := by
  have hsame {i : Nat} {w w' : Worker} (hw : s.workers[i]? = some w)
      (hd : w'.delivered? = w.delivered?) :
      (s.collected ++ s.slot.toList).Perm ((s.workers.set i w').filterMap Worker.delivered?) := by
    rw [filterMap_set_same hw hd]
    exact hp
  cases h with
  | elapse | cancel | close | expire | keepAlarm | callOffAlarm => exact hp
  | fetch hw hphase | bytes hw hphase | fail hw hphase | crash hw hphase | offer hw hphase
  | withdraw hw hphase | keepFailure hw hphase | keepWithdrawal hw hphase
  | callOffFailure hw hphase =>
    exact hsame hw (by simp [Worker.delivered?, hphase])
  | join hw | joinCrashed hw => exact hsame hw rfl
  | @publish i w data hw hphase hslot =>
    -- the slot was free, so the fragment is the only one in it
    have hnew := filterMap_set_new (f := Worker.delivered?) { w with phase := .published data } hw
      (by simp [Worker.delivered?, hphase]) rfl
    refine .trans ?_ hnew.symm
    rw [hslot, Option.toList_none, List.append_nil] at hp
    exact hp.append_right _
  | collect hslot ha =>
    rw [hslot] at hp
    simpa using hp

/-- A closed channel stays empty, since nobody is left to put anything into it. -/
theorem closed_transition (hc : s.isOpen = false → s.slot = none ∧ s.allEnded = true)
    (h : Transition b s label s') :
    s'.isOpen = false → s'.slot = none ∧ s'.allEnded = true := by
  intro hopen
  -- behind a closed channel every worker has ended, and those that have ended only get joined
  have hended {i : Nat} {w : Worker} (hw : s.workers[i]? = some w) (hopen : s.isOpen = false) :
      w.phase.isEnded = true := allEnded_iff.mp (hc hopen).2 i w hw
  cases h with
  | elapse | cancel | expire | keepAlarm | callOffAlarm => exact hc hopen
  | collect => exact ⟨rfl, (hc hopen).2⟩
  | close ha ho hslot he => exact ⟨hslot, he⟩
  | fetch hw hp | bytes hw hp | fail hw hp | crash hw hp | offer hw hp | withdraw hw hp
  | publish hw hp | keepFailure hw hp | keepWithdrawal hw hp | callOffFailure hw hp =>
    have := hended hw hopen
    rw [hp] at this
    cases this
  | join hw | joinCrashed hw =>
    refine ⟨(hc hopen).1, allEnded_iff.mpr ?_⟩
    have hself := hended hw hopen
    exact forall_worker_set (allEnded_iff.mp (hc hopen).2) hself

theorem channel_transition (hc : Channel s) (h : Transition b s label s') : Channel s' where
  joined := joinedEnded_transition hc.joined h
  perm := perm_delivered_transition hc.perm h
  closed := closed_transition hc.closed h

/-! ## Errors

An error is kept before anything shows that it was met: a worker keeps its error before it ends, and
the collector keeps its error before it goes on. -/

/-- There is a first error exactly when an error was met and seen to. -/
structure Accounted (s : State) : Prop where
  of_kept : ∀ (i : Nat) (w : Worker), s.workers[i]? = some w → w.phase.hasKept = true →
    s.firstError ≠ none
  of_callOff : s.alarm = some .callOff → s.firstError ≠ none
  of_met : s.alarm = none → s.CollectorMet → s.firstError ≠ none
  met_of_alarm : s.alarm ≠ none → s.CollectorMet
  cause : s.firstError ≠ none →
    (∃ (i : Nat) (w : Worker), s.workers[i]? = some w ∧ w.phase.hasKept = true) ∨ s.CollectorMet

theorem firstError_keep_ne_none (s : State) (error : BatchError) :
    (s.keep error).firstError ≠ none := by
  unfold State.keep
  cases s.firstError <;> simp

/-- An error that was kept stays. -/
theorem firstError_transition (h : Transition b s label s') :
    s'.firstError = s.firstError ∨ s'.firstError ≠ none := by
  cases h with
  | keepFailure | keepWithdrawal | keepAlarm => exact .inr (firstError_keep_ne_none _ _)
  | _ => exact .inl rfl

/-- Once there is a first error, there always is. -/
theorem firstError_ne_none_transition (he : s.firstError ≠ none) (h : Transition b s label s') :
    s'.firstError ≠ none := by
  rcases firstError_transition h with heq | hne
  · rwa [heq]
  · exact hne

/-- A worker that was joined does nothing more. -/
theorem joined_transition (hj : s.JoinedEnded) {i : Nat} {w : Worker} (hw : s.workers[i]? = some w)
    (hjoined : w.isJoined = true) (h : Transition b s label s') : s'.workers[i]? = some w := by
  have hother {j : Nat} {v v' : Worker} (hv : s.workers[j]? = some v)
      (hne : v.isJoined = false ∨ v.phase.isEnded = false) :
      (s.workers.set j v')[i]? = some w := by
    rw [List.getElem?_set_ne, hw]
    rintro rfl
    obtain rfl : w = v := Option.some.inj (hw.symm.trans hv)
    rcases hne with hne | hne
    · rw [hjoined] at hne; cases hne
    · rw [hj _ _ hw hjoined] at hne; cases hne
  cases h with
  | elapse | cancel | collect | close | expire | keepAlarm | callOffAlarm => exact hw
  | fetch hv hp | bytes hv hp | fail hv hp | crash hv hp | offer hv hp | withdraw hv hp
  | publish hv hp | keepFailure hv hp | keepWithdrawal hv hp | callOffFailure hv hp =>
    -- the step is that of a worker that has not ended
    exact hother hv (.inr (by rw [hp]; rfl))
  -- nobody is joined twice
  | join hv _ _ _ hopen | joinCrashed hv _ _ hopen => exact hother hv (.inl hopen)

/-- What the collector has met it has met for good. -/
theorem collectorMet_transition (hj : s.JoinedEnded) (hm : s.CollectorMet)
    (h : Transition b s label s') : s'.CollectorMet := by
  rcases hm with hx | ⟨i, w, message, hw, hjoined, hp⟩
  · left
    cases h with
    | expire => rfl
    | _ => exact hx
  · exact .inr ⟨i, w, message, joined_transition hj hw hjoined h, hjoined, hp⟩

/-- A worker that has kept its error, or has nothing more to do about it, did so in this step or
before it. -/
theorem of_kept_transition (ha : Accounted s) (h : Transition b s label s') :
    ∀ (i : Nat) (w : Worker), s'.workers[i]? = some w → w.phase.hasKept = true →
      s'.firstError ≠ none := by
  cases h with
  | elapse | cancel | collect | close | expire | callOffAlarm => exact ha.of_kept
  | keepAlarm => exact fun _ _ _ _ => firstError_keep_ne_none _ _
  | keepFailure | keepWithdrawal => exact fun _ _ _ _ => firstError_keep_ne_none _ _
  | fetch | bytes | fail | crash | offer | withdraw | publish =>
    exact forall_worker_set ha.of_kept fun hk => nomatch hk
  | callOffFailure hw hp =>
    exact forall_worker_set ha.of_kept fun _ => ha.of_kept _ _ hw (by rw [hp]; rfl)
  | join hw | joinCrashed hw =>
    have hself := ha.of_kept _ _ hw
    exact forall_worker_set ha.of_kept hself

/-- Whoever has kept an error goes on to phases that show it. -/
theorem hasKept_transition (h : Transition b s label s') {i : Nat} {w : Worker}
    (hw : s.workers[i]? = some w) (hk : w.phase.hasKept = true) :
    ∃ w' : Worker, s'.workers[i]? = some w' ∧ w'.phase.hasKept = true := by
  have hset {j : Nat} {v v' : Worker} (hv : s.workers[j]? = some v)
      (hkept : v.phase.hasKept = true → v'.phase.hasKept = true) :
      ∃ w' : Worker, (s.workers.set j v')[i]? = some w' ∧ w'.phase.hasKept = true :=
    exists_worker_set hw hk hv hkept
  cases h with
  | elapse | cancel | collect | close | expire | keepAlarm | callOffAlarm => exact ⟨w, hw, hk⟩
  | fetch hv hp | bytes hv hp | fail hv hp | crash hv hp | offer hv hp | withdraw hv hp
  | publish hv hp =>
    exact hset hv fun hkept => by rw [hp] at hkept; cases hkept
  | keepFailure hv | keepWithdrawal hv | callOffFailure hv => exact hset hv fun _ => rfl
  | join hv | joinCrashed hv => exact hset hv id

/-- What the collector has met it met before, or it has still to see to it. -/
theorem collectorMet_of_transition (hj : s.JoinedEnded) (h : Transition b s label s')
    (hm : s'.CollectorMet) : s.CollectorMet ∨ s'.alarm ≠ none := by
  have hset {j : Nat} {v : Worker} (v' : Worker) (hv : s.workers[j]? = some v)
      (hself : v'.isJoined = true → ∀ message, v'.phase ≠ .crashed message)
      (hm : s.isExpired = true ∨ ∃ (i : Nat) (w : Worker) (message : Option String),
        (s.workers.set j v')[i]? = some w ∧ w.isJoined = true ∧ w.phase = .crashed message) :
      s.CollectorMet := by
    rcases hm with hx | ⟨i, w, message, hw, hjoined, hp⟩
    · exact .inl hx
    · by_cases hij : j = i
      · subst hij
        rw [getElem?_worker_set hv] at hw
        cases hw
        exact absurd hp (hself hjoined message)
      · rw [List.getElem?_set_ne hij] at hw
        exact .inr ⟨i, w, message, hw, hjoined, hp⟩
  cases h with
  | elapse | cancel | collect | close | keepAlarm | callOffAlarm => exact .inl hm
  | expire | joinCrashed => exact .inr nofun
  | fetch hv | bytes hv | fail hv | offer hv | withdraw hv | publish hv | keepFailure hv
  | keepWithdrawal hv | callOffFailure hv =>
    refine .inl (hset _ hv ?_ hm)
    exact fun _ _ => nofun
  | crash hv hp =>
    refine .inl (hset _ hv (fun hjoined => ?_) hm)
    have := hj _ _ hv hjoined
    rw [hp] at this
    cases this
  | @join i w hv _ _ hc => exact .inl (hset { w with isJoined := true } hv (fun _ => hc) hm)

/-- When the alarm is over, the error that raised it has been kept. -/
theorem of_met_transition (hj : s.JoinedEnded) (ha : Accounted s) (h : Transition b s label s')
    (halarm : s'.alarm = none) (hm : s'.CollectorMet) : s'.firstError ≠ none := by
  -- nothing new was met, or there would be an alarm
  have hbefore := (collectorMet_of_transition hj h hm).resolve_right fun hne => hne halarm
  cases h with
  | callOffAlarm hcall => exact ha.of_callOff hcall
  | expire | joinCrashed | keepAlarm => cases halarm
  | keepFailure | keepWithdrawal => exact firstError_keep_ne_none _ _
  | _ => exact ha.of_met halarm hbefore

/-- An alarm is raised for something that the collector has met. -/
theorem met_of_alarm_transition (hj : s.JoinedEnded) (ha : Accounted s)
    (h : Transition b s label s') (halarm : s'.alarm ≠ none) : s'.CollectorMet := by
  cases hbefore : s.alarm with
  | some alarm =>
    exact collectorMet_transition hj (ha.met_of_alarm (by rw [hbefore]; nofun)) h
  | none =>
    cases h with
    | expire => exact .inl rfl
    | joinCrashed hw _ hp _ => exact .inr ⟨_, _, _, getElem?_worker_set hw _, rfl, hp⟩
    | keepAlarm hcall | callOffAlarm hcall => rw [hbefore] at hcall; cases hcall
    | _ => exact absurd hbefore halarm

/-- A first error comes from a worker that kept one or from something that the collector met. -/
theorem cause_transition (hj : s.JoinedEnded) (ha : Accounted s) (h : Transition b s label s')
    (he : s'.firstError ≠ none) :
    (∃ (i : Nat) (w : Worker), s'.workers[i]? = some w ∧ w.phase.hasKept = true) ∨
      s'.CollectorMet := by
  by_cases hbefore : s.firstError = none
  · cases h with
    | keepFailure hw | keepWithdrawal hw =>
      exact .inl ⟨_, _, getElem?_worker_set hw _, rfl⟩
    -- the collector had met the error before it could keep it
    | keepAlarm hcall => exact .inr (ha.met_of_alarm (by rw [hcall]; nofun))
    | _ => exact absurd hbefore he
  · rcases ha.cause hbefore with ⟨i, w, hw, hk⟩ | hm
    · obtain ⟨w', hw', hk'⟩ := hasKept_transition h hw hk
      exact .inl ⟨i, w', hw', hk'⟩
    · exact .inr (collectorMet_transition hj hm h)

/-- Every step keeps errors and causes in agreement. -/
theorem accounted_transition (hj : s.JoinedEnded) (ha : Accounted s) (h : Transition b s label s') :
    Accounted s' where
  of_kept := of_kept_transition ha h
  of_callOff := by
    intro halarm
    cases h with
    | keepAlarm => exact firstError_keep_ne_none _ _
    | expire | joinCrashed | callOffAlarm => cases halarm
    | keepFailure | keepWithdrawal => exact firstError_keep_ne_none _ _
    | _ => exact ha.of_callOff halarm
  of_met := of_met_transition hj ha h
  met_of_alarm := met_of_alarm_transition hj ha h
  cause := cause_transition hj ha h

/-! ## Every run

All three parts hold at first, where nothing has happened, and every step keeps them. -/

/-- All that a batch keeps track of. -/
structure Bookkeeping (tags : List Include) (labels : List Label) (s : State) : Prop where
  recorded : Recorded tags labels s
  channel : Channel s
  accounted : Accounted s

/-- The workers at first are those that the resolver makes for the tags. -/
theorem getElem?_beginning {r : Resolver} {scope : Scope} {t : Timeline} {i : Nat} {w : Worker}
    (hw : (beginning r tags scope t).workers[i]? = some w) :
    ∃ tag, tags[i]? = some tag ∧ w = r.worker i tag := by
  simp only [beginning, List.getElem?_mapIdx, Option.map_eq_some_iff] at hw
  obtain ⟨tag, htag, rfl⟩ := hw
  exact ⟨tag, htag, rfl⟩

/-- The workers are for the tags of the page, in order. -/
theorem map_tag_beginning (r : Resolver) (scope : Scope) (t : Timeline) :
    (beginning r tags scope t).workers.map Worker.tag = tags := by
  refine List.ext_getElem? fun i => ?_
  rw [List.getElem?_map, beginning, List.getElem?_mapIdx]
  cases tags[i]? <;> rfl

/-- At first the collector has met nothing. -/
theorem not_collectorMet_beginning (r : Resolver) (scope : Scope) (t : Timeline) :
    ¬ (beginning r tags scope t).CollectorMet := by
  rintro (hx | ⟨i, w, message, hw, hjoined, -⟩)
  · cases hx
  · obtain ⟨tag, -, rfl⟩ := getElem?_beginning hw
    cases hjoined

/-- The bookkeeping holds when a batch begins. -/
theorem bookkeeping_beginning (r : Resolver) (scope : Scope) (t : Timeline) :
    Bookkeeping tags [] (beginning r tags scope t) where
  recorded := by
    refine ⟨map_tag_beginning r scope t, fun i w hw outcome => ?_, by simp [beginning]⟩
    obtain ⟨tag, -, rfl⟩ := getElem?_beginning hw
    simp [Resolver.worker, Phase.outcome?]
  channel := by
    refine ⟨fun i w hw hjoined => ?_, ?_, fun hopen => nomatch hopen⟩
    · obtain ⟨tag, -, rfl⟩ := getElem?_beginning hw
      cases hjoined
    · have hnone : (beginning r tags scope t).workers.filterMap Worker.delivered? = [] := by
        rw [List.filterMap_eq_nil_iff]
        intro w hmem
        obtain ⟨i, hw⟩ := List.mem_iff_getElem?.mp hmem
        obtain ⟨tag, -, rfl⟩ := getElem?_beginning hw
        rfl
      rw [hnone]
      exact .refl _
  accounted := by
    refine ⟨fun i w hw hk => ?_, nofun, fun _ hm => ?_, fun h => absurd rfl h,
      fun h => absurd rfl h⟩
    · obtain ⟨tag, -, rfl⟩ := getElem?_beginning hw
      cases hk
    · exact absurd hm (not_collectorMet_beginning r scope t)

/-- Every step keeps all three parts. -/
theorem bookkeeping_transition (hb : Bookkeeping tags labels s) (h : Transition b s label s') :
    Bookkeeping tags (labels ++ [label]) s' where
  recorded := recorded_transition hb.recorded h
  channel := channel_transition hb.channel h
  accounted := accounted_transition hb.channel.joined hb.accounted h

/-- **The bookkeeping holds after every run.** -/
theorem bookkeeping_of_run {r : Resolver} {scope : Scope} {t : Timeline} {s₀ : State}
    (hstart : r.start tags scope t = some (b, s₀)) (hrun : run b s₀ labels = some s) :
    Bookkeeping tags labels s := by
  obtain ⟨deadline, -, rfl, rfl⟩ := start_eq_some_iff.mp hstart
  exact run_induction (bookkeeping_beginning r scope t)
    (fun _ _ _ _ _ hb h => bookkeeping_transition hb h) hrun

end EdgeInclude.Batch
