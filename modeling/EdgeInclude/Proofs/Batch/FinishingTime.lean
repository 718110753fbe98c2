import EdgeInclude.Proofs.Batch.Clock

/-!
# How a call ends, and when

What a call of a resolver comes to is told by its timetable alone: by the plans of the fetches,
their timeouts, the deadline and the cancellation of the request. No order of steps comes into it.

* **`Measured`**: the clock can tell the times of the call.
* **`tracked_beginning`**, **`exists_visit_of_isEvent`**: the batch begins in keeping with the
  timetable, and the clock leaves no time of it out.
* **`exists_resolve_on_time`**: hence the call comes to its end, on time.
* **`exists_run_of_resolve`**: whenever it does, the call is a run of its batch.
* **`result_and_finishing_time`**: with all fragments or an error, and when.
* **`looksInTime_not_enough`**: what becomes of fetches that are in time only at first sight.
-/

namespace EdgeInclude

/-! ## Deadlines

The deadline of a batch is the earlier of two, so the time until then is the shorter one. -/

/-- The time until the earlier of two instants is the shorter of the two times. -/
theorem Instant.until_min (now d latest : Instant) :
    now.until (some (d.min latest)) = min (now.until (some d)) (now.until (some latest)) := by
  by_cases hle : d ≤ latest
  · have hsince : now.until (some d) ≤ now.until (some latest) :=
      Nat.cast_le.mpr (since_le_since hle now)
    rw [Instant.min, if_pos hle, min_eq_left hsince]
  · have hsince : now.until (some latest) ≤ now.until (some d) :=
      Nat.cast_le.mpr (since_le_since (Nat.le_of_not_le hle) now)
    rw [Instant.min, if_neg hle, min_eq_right hsince]

/-- An instant later by a duration, if the clock can show it. -/
theorem Instant.nanos_of_add? {now latest : Instant} {d : Duration}
    (h : now.add? d = some latest) : latest.nanos = now.nanos + d.nanos := by
  unfold add? ofNanos? at h
  split at h
  · cases h
    rfl
  · cases h

/-- A batch can have its deadline exactly if the clock can show when the time limit is up. -/
theorem Scope.exists_deadlineWithin?_iff {scope : Scope} {now : Instant} {limit : Option Duration} :
    (∃ deadline, scope.deadlineWithin? now limit = some deadline) ↔
      ∀ d, limit = some d → now.nanos + d.nanos ≤ maxInstantNanos := by
  unfold deadlineWithin?
  cases limit with
  | none => exact iff_of_true ⟨_, rfl⟩ nofun
  | some d =>
    have hadd : now.nanos + d.nanos ≤ maxInstantNanos ↔ now.add? d ≠ none := by
      rw [Ne, Instant.add?_eq_none_iff, Nat.not_lt]
    simp only [Option.some.injEq, forall_eq', hadd]
    cases now.add? d with
    | none => simp
    | some latest => cases scope.deadline <;> simp

/-- What the deadline of a batch comes from: that of the request, or the time limit of the resolver,
whichever is earlier. -/
theorem Scope.deadlineWithin?_cases {scope : Scope} {now : Instant} {limit : Option Duration}
    {deadline : Option Instant} (h : scope.deadlineWithin? now limit = some deadline) :
    (limit = none ∧ deadline = scope.deadline) ∨
    ∃ d latest, limit = some d ∧ latest.nanos = now.nanos + d.nanos ∧
      (scope.deadline = none ∧ deadline = some latest ∨
        ∃ own, scope.deadline = some own ∧ deadline = some (own.min latest)) := by
  unfold deadlineWithin? at h
  cases limit with
  | none => exact .inl ⟨rfl, (Option.some.inj h).symm⟩
  | some d =>
    cases hlatest : now.add? d with
    | none => simp [hlatest] at h
    | some latest =>
      refine .inr ⟨d, latest, rfl, Instant.nanos_of_add? hlatest, ?_⟩
      simp only [hlatest] at h
      cases hown : scope.deadline with
      | none =>
        rw [hown] at h
        exact .inl ⟨rfl, (Option.some.inj h).symm⟩
      | some own =>
        rw [hown] at h
        exact .inr ⟨own, rfl, (Option.some.inj h).symm⟩

/-- The deadline of a batch is as far off as the earlier of the two. -/
theorem Scope.until_deadlineWithin? {scope : Scope} {now : Instant} {limit : Option Duration}
    {deadline : Option Instant} (h : scope.deadlineWithin? now limit = some deadline) :
    now.until deadline = min (now.until scope.deadline) (Duration.limit limit) := by
  rcases deadlineWithin?_cases h with ⟨rfl, rfl⟩ | ⟨d, latest, rfl, hlatest, hdeadline⟩
  · exact (min_top_right _).symm
  · have hlimit : now.until (some latest) = Duration.limit (some d) := by
      show ((latest.nanos - now.nanos : ℕ) : ℕ∞) = (d.nanos : ℕ∞)
      rw [hlatest, Nat.add_sub_cancel_left]
    rcases hdeadline with ⟨hnone, rfl⟩ | ⟨own, hown, rfl⟩
    · rw [hnone, hlimit]
      exact (min_top_left _).symm
    · rw [hown, Instant.until_min, hlimit]

namespace Batch

open Cancellation

variable {b : Setup} {s₀ : State} {r : Resolver} {fetcher : Fetcher} {tags : List Include}
variable {scope : Scope} {t : Timeline}

/-! ## How a call begins

The timetable is made of what is known when the call begins, and the batch is in keeping with it. -/

/-- The clock can tell the times of a call: they are whole milliseconds, and none is so far off that
the clock cannot show it. -/
structure Measured (r : Resolver) (fetcher : Fetcher) (tags : List Include) (scope : Scope)
    (t : Timeline) : Prop where
  now : Instant.IsWhole t.now.nanos
  deadline : ∀ deadline, scope.deadline = some deadline → Instant.IsWhole deadline.nanos
  batchDeadline : ∀ d, r.batchDeadline = some d →
    Instant.IsWhole d.nanos ∧ t.now.nanos + d.nanos ≤ maxInstantNanos
  cancellation : ∀ a, t.upcoming = some a → Instant.IsWhole a.instant.nanos
  delay : ∀ tag ∈ tags, ∀ d, (fetcher tag scope.request).delay = some d → Instant.IsWhole d.nanos
  timeout : ∀ tag ∈ tags, Instant.IsWhole (r.timeouts.resolve tag.directives.timeout).nanos
  /-- No timer is set for later. -/
  far : t.now.nanos + Instant.farNanos ≤ maxInstantNanos

/-- A call whose times the clock can tell begins. -/
theorem Measured.start (hclock : Measured r fetcher tags scope t) :
    ∃ b, r.start tags scope t = some (b, beginning r tags scope t) := by
  obtain ⟨deadline, hdeadline⟩ := Scope.exists_deadlineWithin?_iff.mpr
    fun d hd => (hclock.batchDeadline d hd).2
  exact ⟨_, start_eq_some_iff.mpr ⟨deadline, hdeadline, rfl, rfl⟩⟩

/-- The timetable of a call is that of its batch. -/
theorem fits_timetable (hstart : r.start tags scope t = some (b, s₀))
    (hbounded : ∀ tag ∈ tags, (fetcher tag scope.request).isBounded = true) :
    (r.timetable fetcher scope t).Fits b fetcher t.now tags := by
  obtain ⟨deadline, hdeadline, rfl, rfl⟩ := start_eq_some_iff.mp hstart
  refine ⟨fun _ => rfl, hbounded, fun now hle => ?_⟩
  rw [Scope.isOverdue_iff hle, Scope.until_deadlineWithin? hdeadline]
  rfl

/-- A batch begins in keeping with the timetable. -/
theorem tracked_beginning (fetcher : Fetcher) (hstart : r.start tags scope t = some (b, s₀))
    (hf : t.forest.WellFormed) (hr : scope.token < t.forest.nodes.length) :
    Tracked b (r.timetable fetcher scope t) t.now tags s₀ := by
  have hn := nested_beginning hf hr hstart
  obtain ⟨deadline, -, rfl, rfl⟩ := start_eq_some_iff.mp hstart
  have hzero : (beginning r tags scope t).now.since t.now = 0 := Nat.sub_self _
  refine
    { bookkeeping := ⟨_, bookkeeping_beginning r scope t⟩, nested := hn, le_now := Nat.le_refl _
      limit := fun i w hw => ?limit, phase := fun i w hw => ?phase
      crashed := fun i w hw message hj => ?crashed
      undisturbed := fun hearly => ⟨rfl, rfl, ?isCancelled, fun i w hw => ?isFine⟩ }
  case limit =>
    obtain ⟨tag, -, rfl⟩ := getElem?_beginning hw
    rfl
  case phase =>
    obtain ⟨tag, -, rfl⟩ := getElem?_beginning hw
    exact hzero
  case crashed =>
    obtain ⟨tag, -, rfl⟩ := getElem?_beginning hw
    cases hj
  case isCancelled =>
    -- the request is not cancelled, or else that would be what goes wrong first
    have hlt := (Timetable.lt_failing_iff.mp hearly).2.2
    rw [hzero, Resolver.timetable] at hlt
    show (t.forest.child scope.token).2.isCancelled t.forest.nodes.length = false
    rw [Forest.isCancelled_child hf, if_pos rfl]
    cases hc : t.forest.isCancelled scope.token with
    | false => rfl
    | true => simp [hc] at hlt
  case isFine =>
    obtain ⟨tag, -, rfl⟩ := getElem?_beginning hw
    rfl

/-- The cancellation that is to come is the one of the timetable. -/
theorem awaits_beginning (fetcher : Fetcher) (hstart : r.start tags scope t = some (b, s₀))
    (hf : t.forest.WellFormed) (hrequest : ∀ a, t.upcoming = some a → a.token = scope.token) :
    Awaits b (r.timetable fetcher scope t) t.now s₀ t.upcoming := by
  obtain ⟨deadline, -, rfl, rfl⟩ := start_eq_some_iff.mp hstart
  have hcancellation : (r.timetable fetcher scope t).cancellation =
        t.now.until (t.upcoming.map Appointment.instant) ∨
      (beginning r tags scope t).forest.isCancelled t.forest.nodes.length = true := by
    show (if t.forest.isCancelled scope.token then 0 else _) = _ ∨
      (t.forest.child scope.token).2.isCancelled t.forest.nodes.length = true
    rw [Forest.isCancelled_child hf, if_pos rfl]
    cases hc : t.forest.isCancelled scope.token with
    | false => exact .inl (if_neg Bool.false_ne_true)
    | true => exact .inr rfl
  refine ⟨fun hnone => ?_, fun a ha => ⟨hrequest a ha, ?_⟩⟩
  · rw [hnone] at hcancellation
    exact hcancellation
  · rw [ha] at hcancellation
    exact hcancellation

/-! ## No time is left out

Every time in the timetable is one at which the clock stops. -/

/-- The deadline of a batch is a whole millisecond. -/
theorem Measured.isWhole_deadline (hclock : Measured r fetcher tags scope t)
    {deadline : Option Instant}
    (h : scope.deadlineWithin? t.now r.batchDeadline = some deadline) :
    ∀ instant, deadline = some instant → Instant.IsWhole instant.nanos := by
  rintro instant rfl
  rcases Scope.deadlineWithin?_cases h with ⟨-, hown⟩ | ⟨d, latest, hlimit, hlatest, hdeadline⟩
  · exact hclock.deadline instant hown.symm
  · have hwhole : Instant.IsWhole latest.nanos := by
      rw [hlatest]
      exact hclock.now.add (hclock.batchDeadline d hlimit).1
    rcases hdeadline with ⟨-, heq⟩ | ⟨own, hown, heq⟩
    · obtain rfl := Option.some.inj heq
      exact hwhole
    · obtain rfl := Option.some.inj heq
      unfold Instant.min
      split
      · exact hclock.deadline own hown
      · exact hwhole

/-- The timers of a batch are those of its fetches. -/
theorem mem_timers {tag : Include} {n : Nat} (hmem : tag ∈ tags)
    (hn : n ∈ Fetch.timers ⟨fetcher tag b.scope.request, t.now,
      r.timeouts.resolve tag.directives.timeout⟩ b.scope) :
    n ∈ timers b fetcher (beginning r tags scope t) := by
  obtain ⟨i, htag⟩ := List.mem_iff_getElem?.mp hmem
  have hw : (beginning r tags scope t).workers[i]? = some (r.worker i tag) := by
    rw [beginning, List.getElem?_mapIdx, htag]
    rfl
  exact List.mem_flatMap.mpr ⟨_, List.mem_of_getElem? hw, hn⟩

/-- When a fetch comes to its own end, one of its timers goes off, unless it takes no time. -/
theorem own_spec (hclock : Measured r fetcher tags scope t) {tag : Include} (hmem : tag ∈ tags) :
    Fetch.ownNanos ⟨fetcher tag scope.request, t.now, r.timeouts.resolve tag.directives.timeout⟩ =
        t.now.nanos + (r.timetable fetcher scope t).own tag ∧
      Instant.IsWhole ((r.timetable fetcher scope t).own tag) ∧
      (r.timetable fetcher scope t).own tag ≤ Instant.farNanos := by
  have hwhole := hclock.delay tag hmem
  unfold Fetch.ownNanos Timetable.own Resolver.timetable
  cases hd : (fetcher tag scope.request).delay with
  | none => exact ⟨by simp, rfl, Nat.zero_le _⟩
  | some d =>
    refine ⟨by simp [Instant.timerNanos], ?_, Nat.min_le_right _ _⟩
    exact (hwhole d hd).min Instant.isWhole_farNanos

/-- **No time at which something can happen is left out.** -/
theorem exists_visit_of_isEvent (hclock : Measured r fetcher tags scope t) (hne : tags ≠ [])
    (hstart : r.start tags scope t = some (b, s₀)) {e : Nat}
    (hevent : (r.timetable fetcher scope t).IsEvent tags e) (hpos : 0 < e) :
    ∃ next ∈ (t.visits (timers b fetcher s₀)).tail, next.since t.now = e := by
  obtain ⟨deadline, hdeadline, rfl, rfl⟩ := start_eq_some_iff.mp hstart
  rcases hevent with ⟨tag, hmem, rfl | rfl⟩ | heq | heq
  · -- a fetch comes to its own end
    obtain ⟨hnanos, hwhole, hle⟩ := own_spec hclock hmem
    refine Timeline.exists_visit (List.mem_append_right _ (mem_timers hmem ?_)) (hclock.now.add hwhole)
      (Nat.le_trans (Nat.add_le_add_left hle _) hclock.far) hpos
    rw [← hnanos]
    simp [Fetch.timers]
  · -- the time of a fetch is up
    have hwhole := (hclock.timeout tag hmem).min Instant.isWhole_farNanos
    refine Timeline.exists_visit (List.mem_append_right _ (mem_timers hmem ?_)) (hclock.now.add hwhole)
      (Nat.le_trans (Nat.add_le_add_left (Nat.min_le_right _ _) _) hclock.far) hpos
    simp [Fetch.timers, Fetch.timeoutNanos, Instant.timerNanos, Resolver.timetable]
  · -- the deadline is reached, which every fetch knows
    rw [Resolver.timetable] at heq
    rw [← Scope.until_deadlineWithin? hdeadline] at heq
    obtain ⟨instant, rfl, hnanos⟩ := Instant.exists_of_until_eq heq hpos
    obtain ⟨tag, hmem⟩ := List.exists_mem_of_ne_nil tags hne
    have hwhole := hclock.isWhole_deadline hdeadline instant rfl
    rw [hnanos] at hwhole
    refine Timeline.exists_visit (List.mem_append_right _ (mem_timers hmem ?_)) hwhole ?_ hpos
    · simp [Fetch.timers, hnanos]
    · rw [← hnanos]
      exact instant.le_max
  · -- the request is cancelled
    -- a request that is cancelled already would be cancelled at once
    have hdown : t.forest.isCancelled scope.token = false := by
      by_contra hup
      rw [Resolver.timetable, if_pos (by simpa using hup)] at heq
      exact absurd hpos (by simpa using heq)
    rw [Resolver.timetable, hdown] at heq
    obtain ⟨instant, hinstant, hnanos⟩ := Instant.exists_of_until_eq heq hpos
    obtain ⟨a, ha, rfl⟩ := Option.map_eq_some_iff.mp hinstant
    have hwhole := hclock.cancellation a ha
    rw [hnanos] at hwhole
    refine Timeline.exists_visit (List.mem_append_left _ ?_) hwhole ?_ hpos
    · simp [ha, hnanos]
    · rw [← hnanos]
      exact a.instant.le_max

/-! ## The whole call

What is known of the batch on the clock, said of the call. -/

/-- A call comes to what its batch comes to on the clock. -/
theorem resolve_of_runOver {s : State} {upcoming : Option Appointment} (hne : tags ≠ [])
    (hstart : r.start tags scope t = some (b, s₀))
    (hrun : runOver b fetcher (t.visits (timers b fetcher s₀)) t.upcoming s₀ = some (s, upcoming)) :
    r.resolve fetcher tags scope t = some (Resolver.conclude b t.now s upcoming) := by
  unfold Resolver.resolve
  cases tags with
  | nil => exact absurd rfl hne
  | cons => simp only [hstart, hrun]

/-- There is no answer if the clock cannot show the deadline. -/
theorem resolve_eq_none {d : Duration} (hne : tags ≠ []) (hd : r.batchDeadline = some d)
    (hfar : maxInstantNanos < t.now.nanos + d.nanos) :
    r.resolve fetcher tags scope t = none := by
  have hstart : r.start tags scope t = none := by
    rw [Resolver.start, hd]
    simp only [Scope.deadlineWithin?, Instant.add?_eq_none_iff.mpr hfar]
  unfold Resolver.resolve
  cases tags with
  | nil => exact absurd rfl hne
  | cons => simp only [hstart]

/-- **A call is a run** that comes to its end, so what holds of every such run holds of the call.
Fetches end as planned in it. -/
theorem exists_run_of_resolve {res : Resolution} (hne : tags ≠ [])
    (h : r.resolve fetcher tags scope t = some res) :
    ∃ b s₀ labels s upcoming, r.start tags scope t = some (b, s₀) ∧ run b s₀ labels = some s ∧
      s.isFinished = true ∧ res = Resolver.conclude b t.now s upcoming ∧
      PlannedRun b fetcher s₀ labels := by
  unfold Resolver.resolve at h
  cases tags with
  | nil => exact absurd rfl hne
  | cons first rest =>
    simp only at h
    split at h
    · cases h
    · rename_i b s₀ hstart
      split at h
      · cases h
      · rename_i s upcoming hrun
        cases h
        have hnothing : run b s₀ [] = some s₀ := rfl
        have hj : s₀.JoinedEnded := (bookkeeping_of_run hstart hnothing).channel.joined
        obtain ⟨⟨labels, hlabels, hplanned⟩, hfin⟩ := exists_run_of_runOver hj hrun
        exact ⟨b, s₀, labels, s, upcoming, hstart, hlabels, hfin, rfl, hplanned⟩

/-- A fetch that leaves its scope alone delivers if it ends with bytes. -/
theorem delivers_iff_of_keeps {tag : Include}
    (hkeeps : (fetcher tag scope.request).cancelsScope = false) :
    ((r.timetable fetcher scope t).plan tag).delivers = true ↔
      ∃ data, (fetcher tag scope.request).outcome = .bytes data :=
  FetchPlan.delivers_iff.trans (and_iff_left hkeeps)

section WholeCall

variable (hne : tags ≠ []) (hbounded : ∀ tag ∈ tags, (fetcher tag scope.request).isBounded = true)
variable (hf : t.forest.WellFormed) (hr : scope.token < t.forest.nodes.length)
variable (hrequest : ∀ a, t.upcoming = some a → a.token = scope.token)
variable (hclock : Measured r fetcher tags scope t)
include hne hbounded hf hr hrequest hclock

/-- **A call comes to its end**, and its batch keeps to the timetable until then. -/
theorem exists_resolve_on_time :
    ∃ b s upcoming,
      r.resolve fetcher tags scope t = some (Resolver.conclude b t.now s upcoming) ∧
      OnTime b (r.timetable fetcher scope t) t.now tags s ∧ Quiet b fetcher s ∧
      s.isFinished = true := by
  obtain ⟨b, hstart⟩ := hclock.start
  have hfits := fits_timetable hstart hbounded
  have htracked := tracked_beginning fetcher hstart hf hr
  have hawaits := awaits_beginning fetcher hstart hf hrequest
  have hzero : (beginning r tags scope t).now.since t.now = 0 := Nat.sub_self _
  -- the first visit takes no time
  obtain ⟨hontime, hawaits'⟩ := htracked.visit hawaits (Nat.le_refl _) (fun _ _ _ _ => hzero)
    (fun i w hw since hp => by
      obtain ⟨tag, -, rfl⟩ := getElem?_beginning hw
      cases hp)
    (by rw [hzero]; exact bot_le) (by rw [hzero]; exact Nat.zero_le _)
  -- and no time of the timetable lies between two visits
  have hcovers : ∀ e, (r.timetable fetcher scope t).IsEvent tags e →
      (beginning r tags scope t).now.since t.now < e →
        ∃ next ∈ (t.visits (timers b fetcher (beginning r tags scope t))).tail,
          next.since t.now = e :=
    fun e hevent hpos => exists_visit_of_isEvent hclock hne hstart hevent (hzero ▸ hpos)
  obtain ⟨s, upcoming, hrun, hend, hquiet, hfin⟩ := runOver_spec hfits hontime hawaits'
    (Nat.le_refl _) (Timeline.pairwise_visits t _) hcovers
  exact ⟨b, s, upcoming, resolve_of_runOver hne hstart hrun, hend, hquiet, hfin⟩

/-- If a fetch is not in time the call gives an error. -/
theorem exists_error_of_not_inTime
    (hlate : ¬ ∀ tag ∈ tags, (r.timetable fetcher scope t).InTime tag) :
    ∃ res, r.resolve fetcher tags scope t = some res ∧ ∃ error, res.result = .error error := by
  obtain ⟨b, s, upcoming, hresolve, hontime, hquiet, hfin⟩ :=
    exists_resolve_on_time hne hbounded hf hr hrequest hclock
  exact ⟨_, hresolve, ((hontime.result_spec hquiet hfin hne).2 hlate).1⟩

/-- **How a call ends, and when.** Let no fetch cancel the scope that it is given. Then the call has an
answer, with all fragments exactly if each fetch ends with bytes and comes to its end before its time is
up, the deadline is reached or the request is cancelled. It then ends when the last of them does;
otherwise it ends when something goes wrong first. -/
theorem result_and_finishing_time
    (hkeeps : ∀ tag ∈ tags, (fetcher tag scope.request).cancelsScope = false) :
    ∃ res, r.resolve fetcher tags scope t = some res ∧
      ((∃ fragments, res.result = .ok fragments) ↔
        ∀ tag ∈ tags, (∃ data, (fetcher tag scope.request).outcome = .bytes data) ∧
          ((r.timetable fetcher scope t).own tag : ℕ∞) <
            min ((r.timetable fetcher scope t).limit tag : ℕ∞)
              (min (r.timetable fetcher scope t).deadline
                (r.timetable fetcher scope t).cancellation)) ∧
      (∀ fragments, res.result = .ok fragments →
        res.timeline.now.since t.now = (r.timetable fetcher scope t).complete tags) ∧
      (∀ error, res.result = .error error →
        (res.timeline.now.since t.now : ℕ∞) = (r.timetable fetcher scope t).failing tags) := by
  obtain ⟨b, s, upcoming, hresolve, hontime, hquiet, hfin⟩ :=
    exists_resolve_on_time hne hbounded hf hr hrequest hclock
  obtain ⟨hinTime, hlate⟩ := hontime.result_spec hquiet hfin hne
  -- no fetch cancels its own scope, so to deliver is to end with bytes
  have hiff : (∀ tag ∈ tags, (∃ data, (fetcher tag scope.request).outcome = .bytes data) ∧
      ((r.timetable fetcher scope t).own tag : ℕ∞) <
        min ((r.timetable fetcher scope t).limit tag : ℕ∞)
          (min (r.timetable fetcher scope t).deadline
            (r.timetable fetcher scope t).cancellation)) ↔
      ∀ tag ∈ tags, (r.timetable fetcher scope t).InTime tag :=
    forall₂_congr fun tag hmem => and_congr_left' (delivers_iff_of_keeps (hkeeps tag hmem)).symm
  rw [hiff]
  refine ⟨_, hresolve, ?_⟩
  show ((∃ fragments, s.result = .ok fragments) ↔ _) ∧
    (∀ fragments, s.result = .ok fragments → s.now.since t.now = _) ∧
      (∀ error, s.result = .error error → (s.now.since t.now : ℕ∞) = _)
  -- either all fetches are in time and the last end decides, or one is not and the first failure
  -- does
  by_cases hall : ∀ tag ∈ tags, (r.timetable fetcher scope t).InTime tag
  · obtain ⟨⟨fragments, hok⟩, hnow⟩ := hinTime hall
    refine ⟨⟨fun _ => hall, fun _ => ⟨fragments, hok⟩⟩, fun _ _ => hnow, fun error herror => ?_⟩
    rw [hok] at herror
    cases herror
  · obtain ⟨⟨error, herror⟩, hnow⟩ := hlate hall
    refine ⟨⟨fun ⟨fragments, hok⟩ => ?_, fun h => absurd h hall⟩, fun fragments hok => ?_,
      fun _ _ => hnow⟩
    · rw [herror] at hok
      cases hok
    · rw [herror] at hok
      cases hok

end WholeCall

/-- The first fetch takes ten milliseconds, the second one thirty. -/
def staggered : Fetcher := fun tag _ =>
  { delay := some (Duration.ofMillis (if tag.fragment.start = 0 then 10 else 30))
    outcome := .bytes [] }

/-- The lone request is to be cancelled after twenty milliseconds. -/
def hurriedTimeline : Timeline :=
  { loneTimeline with upcoming := some ⟨⟨20 * nanosPerMilli, by decide⟩, 0⟩ }

/-- Two fetches of which one is in time; the other would end after the request is cancelled. -/
theorem result_and_finishing_time_hurried :
    twoTags ≠ [] ∧ (∀ tag ∈ twoTags, (staggered tag loneScope.request).isBounded = true) ∧
    (∀ tag ∈ twoTags, (staggered tag loneScope.request).cancelsScope = false) ∧
    hurriedTimeline.forest.WellFormed ∧ Measured {} staggered twoTags loneScope hurriedTimeline ∧
    ∃ res, Resolver.resolve {} staggered twoTags loneScope hurriedTimeline = some res ∧
      (∃ error, res.result = .error error) ∧
      (res.timeline.now.since hurriedTimeline.now : ℕ∞) = (20 * nanosPerMilli : ℕ) := by
  have hne : twoTags ≠ [] := by decide
  have hbounded : ∀ tag ∈ twoTags, (staggered tag loneScope.request).isBounded = true :=
    fun _ _ => rfl
  have hkeeps : ∀ tag ∈ twoTags, (staggered tag loneScope.request).cancelsScope = false :=
    fun _ _ => rfl
  have hf : hurriedTimeline.forest.WellFormed := Forest.wellFormed_empty.create
  have hclock : Measured {} staggered twoTags loneScope hurriedTimeline :=
    { now := by decide, deadline := by decide, batchDeadline := by decide
      cancellation := by decide, delay := by decide, timeout := by decide, far := by decide }
  obtain ⟨res, hresolve, hok, -, hlate⟩ :=
    result_and_finishing_time hne hbounded hf (by decide) (by decide) hclock hkeeps
  have hlast : ¬ ((Resolver.timetable {} staggered loneScope hurriedTimeline).own
      (.ofTag [] 10 20) : ℕ∞) <
      (Resolver.timetable {} staggered loneScope hurriedTimeline).cancellation :=
    fun hlt => absurd (Nat.cast_lt.mp hlt) (by decide)
  have hfailing : (Resolver.timetable {} staggered loneScope hurriedTimeline).failing twoTags =
      (20 * nanosPerMilli : ℕ) := by
    refine le_antisymm (min_le_of_right_le (min_le_right _ _))
      (Timetable.le_failing_iff.mpr ⟨fun tag hmem => ?_, le_top, le_refl _⟩)
    have hlimit : ¬ (Resolver.timetable {} staggered loneScope hurriedTimeline).limit tag ≤
        (Resolver.timetable {} staggered loneScope hurriedTimeline).own tag := by
      revert tag
      decide
    have hdelivers :
        ((Resolver.timetable {} staggered loneScope hurriedTimeline).plan tag).delivers = true := rfl
    rw [Timetable.failure, if_neg hlimit, if_pos hdelivers]
    exact le_top
  refine ⟨hne, hbounded, hkeeps, hf, hclock, res, hresolve, ?_⟩
  cases hresult : res.result with
  | ok fragments =>
    have hlt := (hok.mp ⟨fragments, hresult⟩ _ (List.mem_of_getElem? (i := 1) rfl)).2
    exact absurd (lt_min_iff.mp (lt_min_iff.mp hlt).2).2 hlast
  | error error => exact ⟨⟨error, rfl⟩, (hlate error hresult).trans hfailing⟩

/-- The fetch of a tag looks to be in time when it does not matter what it does to its scope, nor
how long a timer waits at most. -/
def LooksInTime (r : Resolver) (fetcher : Fetcher) (scope : Scope) (t : Timeline) (tag : Include) :
    Prop :=
  (∃ data, (fetcher tag scope.request).outcome = .bytes data) ∧
    ((((fetcher tag scope.request).delay.map Duration.nanos).getD 0 : ℕ) : ℕ∞) <
      min ((r.timeouts.resolve tag.directives.timeout).nanos : ℕ∞)
        (min (r.timetable fetcher scope t).deadline (r.timetable fetcher scope t).cancellation)

/-- Each fetch ends at once, and cancels its own scope. -/
def leaving : Fetcher := fun _ _ => { cancelsScope := true, outcome := .bytes [] }

/-- Each fetch takes thirty years. -/
def lasting : Fetcher := fun _ _ =>
  { delay := some (Duration.ofSeconds (30 * 365 * 86400)), outcome := .bytes [] }

/-- A fetch may take forty years. -/
def patient : Resolver := { timeouts := { default := Duration.ofSeconds (40 * 365 * 86400) } }

/-- Each fetch ends at once. -/
def immediate : Fetcher := fun _ _ => { outcome := .bytes [] }

/-- All fetches together may take longer than the clock can show. -/
def unhurried : Resolver := { batchDeadline := some ⟨maxDurationNanos, Nat.le_refl _⟩ }

/-- Fetches that look to be in time are not enough. One may cancel its own scope; a timeout of more
than thirty years is not waited for; and the clock may not be able to show the deadline. -/
theorem looksInTime_not_enough :
    ((∀ tag ∈ twoTags, LooksInTime {} leaving loneScope loneTimeline tag) ∧
      ∃ res, Resolver.resolve {} leaving twoTags loneScope loneTimeline = some res ∧
        ∃ error, res.result = .error error) ∧
    ((∀ tag ∈ twoTags, LooksInTime patient lasting loneScope loneTimeline tag) ∧
      ∃ res, patient.resolve lasting twoTags loneScope loneTimeline = some res ∧
        ∃ error, res.result = .error error) ∧
    ((∀ tag ∈ twoTags, LooksInTime unhurried immediate loneScope loneTimeline tag) ∧
      unhurried.resolve immediate twoTags loneScope loneTimeline = none) := by
  have hne : twoTags ≠ [] := by decide
  have hf : loneTimeline.forest.WellFormed := Forest.wellFormed_empty.create
  have hfirst : Include.ofTag [] 0 10 ∈ twoTags := List.mem_cons_self
  refine ⟨⟨fun tag hmem => ⟨⟨[], rfl⟩, ?_⟩, ?_⟩, ⟨fun tag hmem => ⟨⟨[], rfl⟩, ?_⟩, ?_⟩,
    fun tag hmem => ⟨⟨[], rfl⟩, ?_⟩, ?_⟩
  · refine lt_min (Nat.cast_lt.mpr ?_) (lt_min (ENat.natCast_lt_top _) (ENat.natCast_lt_top _))
    revert tag
    decide
  · -- each fetch cancels the scope before its fragment is handed over
    have hclock : Measured {} leaving twoTags loneScope loneTimeline :=
      { now := by decide, deadline := by decide, batchDeadline := by decide
        cancellation := by decide, delay := by decide, timeout := by decide, far := by decide }
    refine exists_error_of_not_inTime hne (fun _ _ => rfl) hf (by decide) (by decide) hclock ?_
    intro hall
    have hdelivers := (Timetable.inTime_iff.mp (hall _ hfirst)).1
    cases hdelivers
  · refine lt_min (Nat.cast_lt.mpr ?_) (lt_min (ENat.natCast_lt_top _) (ENat.natCast_lt_top _))
    revert tag
    decide
  · -- the timer for the timeout goes off when that of the fetch does, and comes first
    have hclock : Measured patient lasting twoTags loneScope loneTimeline :=
      { now := by decide, deadline := by decide, batchDeadline := by decide
        cancellation := by decide, delay := by decide, timeout := by decide, far := by decide }
    refine exists_error_of_not_inTime hne (fun _ _ => rfl) hf (by decide) (by decide) hclock ?_
    intro hall
    have hlimit := (Timetable.inTime_iff.mp (hall _ hfirst)).2.1
    exact absurd hlimit (by decide)
  · refine lt_min (Nat.cast_lt.mpr ?_)
      (lt_min (lt_min (ENat.natCast_lt_top _) (Nat.cast_lt.mpr ?_)) (ENat.natCast_lt_top _))
    · revert tag
      decide
    · show 0 < maxDurationNanos
      decide
  · exact resolve_eq_none hne rfl (by decide)

end Batch

end EdgeInclude
