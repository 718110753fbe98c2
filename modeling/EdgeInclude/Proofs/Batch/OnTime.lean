import EdgeInclude.Proofs.Batch.Nesting
import EdgeInclude.Proofs.Batch.Timetable
import EdgeInclude.Proofs.Batch.Turns
import EdgeInclude.Proofs.Visits

/-!
# Batches that keep to their timetable

On a clock that visits every instant of the timetable, the phases of the workers agree with the
times. A fetch that is under way is not late; a fragment that is there was delivered in time; and
until something goes wrong according to the timetable, nothing has gone wrong.

* **`Phase.OnTime`**: what the phase of one worker says about the time.
* **`OnTime`**: the same of all workers, and of the batch as a whole.
* **`OnTime.move`**, **`OnTime.moves`**: what happens at one instant keeps to the timetable.
-/

namespace EdgeInclude.Batch

open Cancellation

variable {b : Setup} {fetcher : Fetcher} {tt : Timetable} {start : Instant} {tags : List Include}
variable {s s' : State} {label : Label} {i : Nat} {w : Worker}

/-! ## What a phase says about the time

What is known of the times of a fetch from the phase that its worker is in. -/

/-- The fetch of a tag has come to its own end before anything interfered, and ended with bytes. -/
structure Timetable.Delivered (tt : Timetable) (tag : Include) (e : Nat) (data : Bytes) : Prop where
  outcome : (tt.plan tag).outcome = .bytes data
  own_le : tt.own tag ≤ e
  lt_limit : tt.own tag < tt.limit tag
  lt_deadline : (tt.own tag : ℕ∞) < tt.deadline
  lt_cancellation : (tt.own tag : ℕ∞) < tt.cancellation

/-- A worker for a tag can be in the phase when the time `e` has passed since the beginning; `c`
says whether the batch is cancelled. -/
def Phase.OnTime (tt : Timetable) (start : Instant) (tag : Include) (e : Nat) (c : Bool) :
    Phase → Prop
  | waiting => e = 0
  | fetching since => since = start ∧ e ≤ tt.own tag ∧ e ≤ tt.limit tag
  | fetched data =>
    tt.Delivered tag e data ∧ ((tt.plan tag).cancelsScope = true → c = true)
  | offering data | published data => tt.Delivered tag e data ∧ (tt.plan tag).cancelsScope = false
  | withdrawing _ _ | failed _ | unpublished _ => c = true
  | failing _ _ | crashed _ => True

/-- In the phase nothing has gone wrong. -/
def Phase.isFine : Phase → Bool
  | waiting | fetching _ | fetched _ | offering _ | published _ => true
  | _ => false

/-- Nothing has gone wrong in the batch. -/
structure Undisturbed (b : Setup) (s : State) : Prop where
  alarm : s.alarm = none
  isExpired : s.isExpired = false
  isCancelled : s.forest.isCancelled b.scope.token = false
  isFine : ∀ (i : Nat) (w : Worker), s.workers[i]? = some w → w.phase.isFine = true

/-- The batch agrees with the timetable, apart from what is to come about at this very instant. -/
structure Tracked (b : Setup) (tt : Timetable) (start : Instant) (tags : List Include) (s : State) :
    Prop where
  bookkeeping : ∃ labels, Bookkeeping tags labels s
  nested : Nested b s.forest
  le_now : start ≤ s.now
  limit : ∀ (i : Nat) (w : Worker), s.workers[i]? = some w →
    min w.timeout.nanos Instant.farNanos = tt.limit w.tag
  phase : ∀ (i : Nat) (w : Worker), s.workers[i]? = some w →
    w.phase.OnTime tt start w.tag (s.now.since start) (s.forest.isCancelled b.scope.token)
  /-- A worker that broke down has the batch called off, once the collector has seen to it. -/
  crashed : ∀ (i : Nat) (w : Worker), s.workers[i]? = some w →
    ∀ message, w.isJoined = true → w.phase = .crashed message → s.alarm = none →
      s.forest.isCancelled b.scope.token = true
  undisturbed : (s.now.since start : ℕ∞) < tt.failing tags → Undisturbed b s

/-- The batch keeps to the timetable. -/
structure OnTime (b : Setup) (tt : Timetable) (start : Instant) (tags : List Include) (s : State) :
    Prop extends Tracked b tt start tags s where
  cancelled : tt.cancellation ≤ (s.now.since start : ℕ∞) →
    s.forest.isCancelled b.scope.token = true
  /-- The clock has not gone past the end of the batch. -/
  le_failing : (s.now.since start : ℕ∞) ≤ tt.failing tags
  le_complete : s.now.since start ≤ tt.complete tags

/-- The timetable is that of the fetches and of the deadline of the batch. -/
structure Timetable.Fits (tt : Timetable) (b : Setup) (fetcher : Fetcher) (start : Instant)
    (tags : List Include) : Prop where
  plan : ∀ tag, tt.plan tag = fetcher tag b.scope.request
  isBounded : ∀ tag ∈ tags, (tt.plan tag).isBounded = true
  isOverdue_iff : ∀ now, start ≤ now →
    (b.scope.isOverdue now = true ↔ tt.deadline ≤ (now.since start : ℕ∞))

/-! ## What ends a fetch

A fetch ends for one of four reasons, and the clock shows which. -/

theorem Tracked.joinedEnded (h : Tracked b tt start tags s) : s.JoinedEnded := by
  obtain ⟨labels, hb⟩ := h.bookkeeping
  exact hb.channel.joined

/-- The tag of a worker is one of the page. -/
theorem Tracked.tag_mem (h : Tracked b tt start tags s) (hw : s.workers[i]? = some w) :
    w.tag ∈ tags := by
  obtain ⟨labels, hb⟩ := h.bookkeeping
  rw [← hb.recorded.map_tag]
  exact List.mem_map_of_mem (List.mem_of_getElem? hw)

/-- **What ends a fetch, by the timetable.** -/
theorem Tracked.stop?_spec (h : Tracked b tt start tags s) (hfits : tt.Fits b fetcher start tags)
    (hw : s.workers[i]? = some w) :
    match (w.fetchSince b fetcher start).stop? b.scope s.forest s.now with
    | some .scope => s.forest.isCancelled b.scope.token = true ∨
        tt.deadline ≤ (s.now.since start : ℕ∞)
    | some .timeout => s.forest.isCancelled b.scope.token = false ∧
        (s.now.since start : ℕ∞) < tt.deadline ∧ tt.limit w.tag ≤ s.now.since start
    | some .itself => s.forest.isCancelled b.scope.token = false ∧
        (s.now.since start : ℕ∞) < tt.deadline ∧ s.now.since start < tt.limit w.tag ∧
          tt.own w.tag ≤ s.now.since start
    | none => s.forest.isCancelled b.scope.token = false ∧
        (s.now.since start : ℕ∞) < tt.deadline ∧ s.now.since start < tt.limit w.tag ∧
          s.now.since start < tt.own w.tag := by
  have hplan : (w.fetchSince b fetcher start).plan = tt.plan w.tag := (hfits.plan w.tag).symm
  have hbounded : (w.fetchSince b fetcher start).plan.isBounded = true := by
    rw [hplan]
    exact hfits.isBounded w.tag (h.tag_mem hw)
  have hnow := Instant.add_since h.le_now
  have htimeout : (w.fetchSince b fetcher start).timeoutNanos ≤ s.now.nanos ↔
      tt.limit w.tag ≤ s.now.since start := by
    rw [← h.limit i w hw, ← hnow]
    exact Nat.add_le_add_iff_left
  have hown : (w.fetchSince b fetcher start).ownNanos ≤ s.now.nanos ↔
      tt.own w.tag ≤ s.now.since start := by
    rw [Fetch.ownNanos, hplan, Timetable.own, ← hnow]
    cases (tt.plan w.tag).delay with
    | none => simp [Worker.fetchSince]
    | some d => exact Nat.add_le_add_iff_left
  -- the four tests of a fetch, in its own order
  have hoverdue := hfits.isOverdue_iff s.now h.le_now
  unfold Fetch.stop?
  simp only [hbounded, Bool.true_and, decide_eq_true_eq, Scope.isDone, Bool.or_eq_true, hoverdue,
    htimeout, hown]
  by_cases hdone : s.forest.isCancelled b.scope.token = true ∨
      tt.deadline ≤ (s.now.since start : ℕ∞)
  · rw [if_pos hdone]
    exact hdone
  · rw [if_neg hdone]
    rw [not_or, Bool.not_eq_true, not_le] at hdone
    obtain ⟨hc, hdeadline⟩ := hdone
    by_cases hlimit : tt.limit w.tag ≤ s.now.since start
    · rw [if_pos hlimit]
      exact ⟨hc, hdeadline, hlimit⟩
    · rw [if_neg hlimit]
      rw [Nat.not_le] at hlimit
      by_cases hend : tt.own w.tag ≤ s.now.since start
      · rw [if_pos hend]
        exact ⟨hc, hdeadline, hlimit, hend⟩
      · rw [if_neg hend]
        exact ⟨hc, hdeadline, hlimit, Nat.not_le.mp hend⟩

/-! ## Moves keep to the timetable

No move of the batch takes time, so what is to be shown is that each happens for a reason whose time
has come. -/

/-- What a phase says stays true when the batch gets cancelled. -/
theorem Phase.OnTime.mono {tag : Include} {e : Nat} {c c' : Bool} {p : Phase}
    (h : p.OnTime tt start tag e c) (hc : c = true → c' = true) : p.OnTime tt start tag e c' := by
  cases p with
  | fetched data => exact ⟨h.1, fun hcancels => hc (h.2 hcancels)⟩
  | withdrawing | failed | unpublished => exact hc h
  | _ => exact h

/-- A step of the batch takes no time. -/
theorem now_transition (hl : label.isInner = true) (h : Transition b s label s') :
    s'.now = s.now := by
  cases h with
  | elapse => cases hl
  | _ => rfl

/-- No step changes the tag of a worker, or how long its fetch may take. -/
theorem limit_transition
    (hlimit : ∀ (i : Nat) (w : Worker), s.workers[i]? = some w →
      min w.timeout.nanos Instant.farNanos = tt.limit w.tag) (h : Transition b s label s') :
    ∀ (i : Nat) (w : Worker), s'.workers[i]? = some w →
      min w.timeout.nanos Instant.farNanos = tt.limit w.tag := by
  cases h with
  | elapse | cancel | collect | close | expire | keepAlarm | callOffAlarm => exact hlimit
  | fetch hw | bytes hw | fail hw | crash hw | offer hw | withdraw hw | publish hw | join hw
  | joinCrashed hw | keepFailure hw | keepWithdrawal hw | callOffFailure hw =>
    have hself := hlimit _ _ hw
    exact forall_worker_set hlimit hself

/-- Steps of the batch itself leave the phases on time. -/
theorem OnTime.phase_own (h : OnTime b tt start tags s) (hl : label.isOwn = true)
    (ht : Transition b s label s') :
    ∀ (i : Nat) (w : Worker), s'.workers[i]? = some w →
      w.phase.OnTime tt start w.tag (s.now.since start)
        (s'.forest.isCancelled b.scope.token) := by
  have hmono : ∀ (i : Nat) (w : Worker), s.workers[i]? = some w →
      w.phase.OnTime tt start w.tag (s.now.since start)
        (s'.forest.isCancelled b.scope.token) := fun i w hw =>
    (h.phase i w hw).mono (isCancelled_transition h.nested ht)
  cases ht with
  | elapse | cancel | bytes | fail | crash => cases hl
  | collect | close | expire | keepAlarm | callOffAlarm => exact hmono
  | join hw | joinCrashed hw =>
    have hself := hmono _ _ hw
    exact forall_worker_set hmono hself
  | fetch hw hp =>
    have hself := hmono _ _ hw
    rw [hp] at hself
    refine forall_worker_set hmono ⟨?_, ?_, ?_⟩
    · -- no time has passed since the beginning
      have hzero : s.now.since start = 0 := hself
      have hnow := Instant.add_since h.le_now
      rw [hzero, Nat.add_zero] at hnow
      exact Instant.eq_of_nanos_eq hnow.symm
    · exact hself ▸ Nat.zero_le _
    · exact hself ▸ Nat.zero_le _
  | offer hw hp hc =>
    -- a fetch that cancels its scope has left the batch cancelled, and then nobody offers anything
    have hself := h.phase _ _ hw
    rw [hp] at hself
    refine forall_worker_set hmono ⟨hself.1, ?_⟩
    cases hcancels : (tt.plan _).cancelsScope with
    | false => rfl
    | true => rw [hself.2 hcancels] at hc; cases hc
  | withdraw hw hp hc => exact forall_worker_set hmono hc
  | publish hw hp =>
    have hself := h.phase _ _ hw
    rw [hp] at hself
    exact forall_worker_set hmono hself
  | keepFailure hw hp => exact forall_worker_set hmono trivial
  | keepWithdrawal hw hp =>
    have hself := hmono _ _ hw
    rw [hp] at hself
    exact forall_worker_set hmono hself
  | callOffFailure hw hp => exact forall_worker_set hmono h.nested.isCancelled_cancel

/-- A worker that broke down has been seen to, or it is seen to now. -/
theorem OnTime.crashed_transition (h : OnTime b tt start tags s) (ht : Transition b s label s') :
    ∀ (i : Nat) (w : Worker), s'.workers[i]? = some w →
      ∀ message, w.isJoined = true → w.phase = .crashed message → s'.alarm = none →
        s'.forest.isCancelled b.scope.token = true := by
  have hup := isCancelled_transition (t := b.scope.token) h.nested ht
  have hsame : s.alarm = none → ∀ (i : Nat) (w : Worker), s.workers[i]? = some w →
      ∀ message, w.isJoined = true → w.phase = .crashed message → s'.alarm = none →
        s'.forest.isCancelled b.scope.token = true :=
    fun ha i w hw message hj hp _ => hup (h.crashed i w hw message hj hp ha)
  -- only the worker that moves has another phase than before
  have hset {j : Nat} {v v' : Worker} (hv : s.workers[j]? = some v)
      (hself : v'.isJoined = true → ∀ message, v'.phase ≠ .crashed message)
      (halarm : s'.alarm = none → s.alarm = none) :
      ∀ (i : Nat) (w : Worker), (s.workers.set j v')[i]? = some w →
        ∀ message, w.isJoined = true → w.phase = .crashed message → s'.alarm = none →
          s'.forest.isCancelled b.scope.token = true := by
    refine forall_worker_set ?_ fun message hj hp _ => absurd hp (hself hj message)
    exact fun i w hw message hj hp ha => hsame (halarm ha) i w hw message hj hp ha
  cases ht with
  | elapse | cancel | collect | close =>
    exact fun i w hw message hj hp ha => hsame ha i w hw message hj hp ha
  | expire | joinCrashed | keepAlarm => exact fun _ _ _ _ _ _ ha => nomatch ha
  | callOffAlarm => exact fun _ _ _ _ _ _ _ => h.nested.isCancelled_cancel
  | crash hw hp =>
    refine hset hw (fun hj => ?_) id
    have := h.joinedEnded _ _ hw hj
    rw [hp] at this
    cases this
  | fetch hw | bytes hw | fail hw | offer hw | withdraw hw | publish hw | keepFailure hw
  | keepWithdrawal hw | callOffFailure hw => exact hset hw (fun _ _ => nofun) id
  -- a crash is not joined in this way: it leaves an alarm
  | @join i w hw _ _ hc => exact hset hw (fun _ => hc) id

/-- As long as nothing goes wrong according to the timetable, steps of the batch itself disturb
nothing. -/
theorem OnTime.undisturbed_own (h : OnTime b tt start tags s)
    (hfits : tt.Fits b fetcher start tags) (hl : label.isOwn = true)
    (ht : Transition b s label s') (hearly : (s.now.since start : ℕ∞) < tt.failing tags) :
    Undisturbed b s' := by
  obtain ⟨ha, hx, hc, hfine⟩ := h.undisturbed hearly
  cases ht with
  | elapse | cancel | bytes | fail | crash => cases hl
  | collect | close => exact ⟨ha, hx, hc, hfine⟩
  | fetch | offer | publish => exact ⟨ha, hx, hc, forall_worker_set hfine rfl⟩
  | join hw =>
    have hself := hfine _ _ hw
    exact ⟨ha, hx, hc, forall_worker_set hfine hself⟩
  | withdraw _ _ hc' => rw [hc] at hc'; cases hc'
  | joinCrashed hw _ hp => have := hfine _ _ hw; rw [hp] at this; cases this
  | keepFailure hw hp => have := hfine _ _ hw; rw [hp] at this; cases this
  | keepWithdrawal hw hp => have := hfine _ _ hw; rw [hp] at this; cases this
  | callOffFailure hw hp => have := hfine _ _ hw; rw [hp] at this; cases this
  | keepAlarm ha' => rw [ha] at ha'; cases ha'
  | callOffAlarm ha' => rw [ha] at ha'; cases ha'
  | expire _ ho =>
    -- the deadline has not been reached
    have hdeadline := (hfits.isOverdue_iff s.now h.le_now).mp ho
    exact absurd hdeadline (not_le.mpr (Timetable.lt_failing_iff.mp hearly).2.1)

/-- **Steps of the batch itself keep to the timetable.** -/
theorem OnTime.own (h : OnTime b tt start tags s) (hfits : tt.Fits b fetcher start tags)
    (hl : label.isOwn = true) (ht : Transition b s label s') : OnTime b tt start tags s' := by
  obtain ⟨labels, hb⟩ := h.bookkeeping
  have hnow := now_transition (Label.isInner_of_isOwn hl) ht
  refine
    { bookkeeping := ⟨_, bookkeeping_transition hb ht⟩, nested := nested_transition h.nested ht
      le_now := ?le_now, limit := limit_transition h.limit ht, phase := ?phase
      crashed := h.crashed_transition ht, undisturbed := ?undisturbed, cancelled := ?cancelled
      le_failing := ?le_failing, le_complete := ?le_complete } <;> rw [hnow]
  case le_now => exact h.le_now
  case phase => exact h.phase_own hl ht
  case undisturbed => exact h.undisturbed_own hfits hl ht
  case cancelled => exact fun hle => isCancelled_transition h.nested ht (h.cancelled hle)
  case le_failing => exact h.le_failing
  case le_complete => exact h.le_complete

/-- A batch whose time has come can be cancelled. -/
theorem OnTime.cancel_scope (h : OnTime b tt start tags s)
    (hlate : tt.failing tags ≤ (s.now.since start : ℕ∞)) :
    OnTime b tt start tags (s.cancel b.scope.token) := by
  obtain ⟨labels, hb⟩ := h.bookkeeping
  have ht : Transition b s (.cancel b.scope.token) (s.cancel b.scope.token) := .cancel _
  have hup : (s.cancel b.scope.token).forest.isCancelled b.scope.token = true :=
    h.nested.isCancelled_cancel
  exact
    { bookkeeping := ⟨_, bookkeeping_transition hb ht⟩, nested := nested_transition h.nested ht
      le_now := h.le_now, limit := h.limit
      phase := fun i w hw => (h.phase i w hw).mono fun _ => hup
      crashed := fun _ _ _ _ _ _ _ => hup
      undisturbed := fun hearly => absurd hlate (not_le.mpr hearly)
      cancelled := fun _ => hup, le_failing := h.le_failing, le_complete := h.le_complete }

/-- The end of a fetch keeps to the timetable if bytes are delivered in time, and if nothing else
happens as long as nothing goes wrong. -/
theorem OnTime.finish {outcome : Outcome} (h : OnTime b tt start tags s)
    (hw : s.workers[i]? = some w)
    (hdata : ∀ data, outcome = .bytes data →
      tt.Delivered w.tag (s.now.since start) data ∧
        ((tt.plan w.tag).cancelsScope = true → s.forest.isCancelled b.scope.token = true))
    (hfine : (s.now.since start : ℕ∞) < tt.failing tags → ∃ data, outcome = .bytes data)
    (ht : Transition b s (.finish i outcome) s') : OnTime b tt start tags s' := by
  obtain ⟨labels, hb⟩ := h.bookkeeping
  have hnow : s'.now = s.now := now_transition rfl ht
  refine
    { bookkeeping := ⟨_, bookkeeping_transition hb ht⟩, nested := nested_transition h.nested ht
      le_now := ?le_now, limit := limit_transition h.limit ht, phase := ?phase
      crashed := h.crashed_transition ht, undisturbed := fun hearly => ?undisturbed
      cancelled := ?cancelled, le_failing := ?le_failing, le_complete := ?le_complete }
  case le_now =>
    rw [hnow]
    exact h.le_now
  case phase =>
    rw [hnow]
    cases ht with
    | bytes hw' hp =>
      obtain rfl : w = _ := Option.some.inj (hw.symm.trans hw')
      exact forall_worker_set h.phase (hdata _ rfl)
    | fail hw' hp => exact forall_worker_set h.phase trivial
    | crash hw' hp => exact forall_worker_set h.phase trivial
  -- a fetch that ends early enough ends with bytes
  case undisturbed =>
    rw [hnow] at hearly
    obtain ⟨data, rfl⟩ := hfine hearly
    obtain ⟨ha, hx, hc, hall⟩ := h.undisturbed hearly
    cases ht with
    | bytes => exact ⟨ha, hx, hc, forall_worker_set hall rfl⟩
  case cancelled =>
    rw [hnow]
    exact fun hle => isCancelled_transition h.nested ht (h.cancelled hle)
  case le_failing =>
    rw [hnow]
    exact h.le_failing
  case le_complete =>
    rw [hnow]
    exact h.le_complete

/-- **What happens at one instant keeps to the timetable.** A fetch that ends is given up, has taken
too long, or has come to its own end; only then can it deliver. -/
theorem OnTime.move (h : OnTime b tt start tags s) (hfits : tt.Fits b fetcher start tags)
    (hmove : Move b fetcher s s') : OnTime b tt start tags s' := by
  cases hmove with
  | own hl ht => exact h.own hfits hl ht
  | @finish i w since stop _ hw hp hstop ht =>
    have hphase := h.phase i w hw
    rw [hp] at hphase
    obtain ⟨rfl, hown, -⟩ := hphase
    have hspec := h.stop?_spec hfits hw
    rw [hstop] at hspec
    have hplan : (w.fetchSince b fetcher since).plan = tt.plan w.tag := (hfits.plan w.tag).symm
    have hfailure (hearly : (s.now.since since : ℕ∞) < tt.failing tags) :
        (s.now.since since : ℕ∞) < tt.failure w.tag :=
      (Timetable.lt_failing_iff.mp hearly).1 w.tag (h.tag_mem hw)
    cases stop with
    | scope =>
      refine h.finish hw (fun _ hdata => by cases hdata) (fun hearly => ?_) ht
      -- the batch is cancelled or overdue, so something has gone wrong
      rcases hspec with hc | hdeadline
      · rw [(h.undisturbed hearly).isCancelled] at hc
        cases hc
      · exact absurd hdeadline (not_le.mpr (Timetable.lt_failing_iff.mp hearly).2.1)
    | timeout =>
      obtain ⟨-, -, hlimit⟩ := hspec
      refine h.finish hw (fun _ hdata => by cases hdata) (fun hearly => ?_) ht
      -- its time would have been up before anything went wrong
      exact absurd hlimit (Nat.not_le.mpr (Timetable.lt_limit_of_lt_failure hown (hfailure hearly)))
    | itself =>
      obtain ⟨hc, hdeadline, hlimit, hend⟩ := hspec
      have hcancellation : (s.now.since since : ℕ∞) < tt.cancellation := by
        rw [← not_le]
        intro hle
        rw [h.cancelled hle] at hc
        cases hc
      have hle : (tt.own w.tag : ℕ∞) ≤ (s.now.since since : ℕ∞) := by exact_mod_cast hend
      have hdelivered : ∀ data, (tt.plan w.tag).outcome = .bytes data →
          tt.Delivered w.tag (s.now.since since) data := fun data hdata =>
        ⟨hdata, hend, Nat.lt_of_le_of_lt hend hlimit, lt_of_le_of_lt hle hdeadline,
          lt_of_le_of_lt hle hcancellation⟩
      have hdelivers (hearly : (s.now.since since : ℕ∞) < tt.failing tags) :
          (tt.plan w.tag).delivers = true :=
        Timetable.delivers_of_lt_failure hend hlimit (hfailure hearly)
      have houtcome : (w.fetchSince b fetcher since).outcome .itself = (tt.plan w.tag).outcome := by
        rw [Fetch.outcome, hplan]
      have hcancels : (w.fetchSince b fetcher since).cancelsScope .itself =
          (tt.plan w.tag).cancelsScope := by
        rw [Fetch.cancelsScope, hplan]
        rfl
      rw [houtcome, hcancels] at ht
      have hfine (hearly : (s.now.since since : ℕ∞) < tt.failing tags) :
          ∃ data, (tt.plan w.tag).outcome = .bytes data :=
        (FetchPlan.delivers_iff.mp (hdelivers hearly)).1
      by_cases hself : (tt.plan w.tag).cancelsScope = true
      · -- the fetch cancels its scope, so it is what goes wrong
        rw [if_pos hself] at ht
        have hlate : tt.failing tags ≤ (s.now.since since : ℕ∞) := by
          rw [← not_lt]
          intro hearly
          have hd := (FetchPlan.delivers_iff.mp (hdelivers hearly)).2
          rw [hself] at hd
          cases hd
        exact (h.cancel_scope hlate).finish hw
          (fun data hdata => ⟨hdelivered data hdata, fun _ => h.nested.isCancelled_cancel⟩) hfine ht
      · rw [if_neg hself] at ht
        exact h.finish hw (fun data hdata => ⟨hdelivered data hdata, fun hc => absurd hc hself⟩)
          hfine ht

/-- Any number of moves keep to the timetable. -/
theorem OnTime.moves (h : OnTime b tt start tags s) (hfits : tt.Fits b fetcher start tags)
    (hmoves : Moves b fetcher s s') : OnTime b tt start tags s' := by
  induction hmoves with
  | refl => exact h
  | tail _ hmove ih => exact ih.move hfits hmove

/-- No time passes in moves. -/
theorem Moves.now_eq (h : Moves b fetcher s s') : s'.now = s.now := by
  induction h with
  | refl => rfl
  | tail _ hmove ih =>
    rw [← ih]
    cases hmove with
    | own hl ht => exact now_transition (Label.isInner_of_isOwn hl) ht
    | finish _ _ _ ht =>
      refine (now_transition rfl ht).trans ?_
      split <;> rfl

end EdgeInclude.Batch
