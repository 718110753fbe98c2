import EdgeInclude.Proofs.Batch.OnTime

/-!
# Batches on a clock, from beginning to end

The clock goes from visit to visit, and at each of them the batch settles. A visit keeps to the
timetable as long as no time at which something can happen lies between it and the visit before.
So the batch keeps to the timetable until it is finished, and then the timetable says with what.

* **`visited_cases`**: a visit lets time pass, and cancels the request if that is due.
* **`exists_run_of_runOver`**: what runs on the clock is a run.
* **`Tracked.visit`**, **`OnTime.settle`**: both halves of a round keep to the timetable.
* **`OnTime.next`**: so does the next visit, if nothing is left out.
* **`runOver_spec`**: hence the batch comes to its end, and keeps to the timetable until then.
* **`OnTime.result_spec`**: what it ends with, and when.
-/

namespace EdgeInclude.Batch

open Cancellation

variable {b : Setup} {fetcher : Fetcher} {tt : Timetable} {start : Instant} {tags : List Include}
variable {s s' : State} {i : Nat} {w : Worker} {upcoming : Option Appointment} {instant : Instant}

/-! ## A visit

What happens on the clock between two turns: time passes, and a cancellation that is due comes
about. -/

/-- The batch when the clock has come to an instant, and the cancellation that is still to come. -/
def visited (s : State) (upcoming : Option Appointment) (instant : Instant) :
    State × Option Appointment :=
  let t := Timeline.visit { forest := s.forest, now := s.now, upcoming } instant
  ({ s with forest := t.forest, now := t.now }, t.upcoming)

/-- The cancellation of the request is still to come, when the timetable says so, unless the batch
is cancelled already. -/
structure Awaits (b : Setup) (tt : Timetable) (start : Instant) (s : State)
    (upcoming : Option Appointment) : Prop where
  of_none : upcoming = none →
    tt.cancellation = ⊤ ∨ s.forest.isCancelled b.scope.token = true
  of_some : ∀ a, upcoming = some a → a.token = b.requestToken ∧
    (tt.cancellation = (a.instant.since start : ℕ∞) ∨
      s.forest.isCancelled b.scope.token = true)

/-- What a visit comes to: time passes, and the request is cancelled if that is due. -/
theorem visited_cases (upcoming : Option Appointment) (hle : s.now ≤ instant) :
    (visited s upcoming instant = ({ s with now := instant }, upcoming) ∧
      ∀ a, upcoming = some a → instant < a.instant) ∨
    ∃ a, upcoming = some a ∧ a.instant ≤ instant ∧
      visited s upcoming instant = ({ s with now := instant }.cancel a.token, none) := by
  have hvisit : Timeline.visit { forest := s.forest, now := s.now, upcoming } instant =
      Timeline.settle { forest := s.forest, now := instant, upcoming } := by
    rw [Timeline.visit, if_pos hle]
  by_cases hdue : ∃ a, upcoming = some a ∧ a.instant ≤ instant
  · obtain ⟨a, ha, hdue⟩ := hdue
    refine .inr ⟨a, ha, hdue, ?_⟩
    rw [visited, hvisit, Timeline.settle_of_due ha hdue]
    rfl
  · have hlater : ∀ a, upcoming = some a → instant < a.instant := fun a ha =>
      Nat.not_le.mp fun hle => hdue ⟨a, ha, hle⟩
    refine .inl ⟨?_, hlater⟩
    rw [visited, hvisit, Timeline.settle_of_not_due hlater]

/-! ## A run on the clock

Visits and turns follow each other, and each is made of steps, so what holds of every run holds
here. -/

/-- A visit is made of steps too: time passes, and a token may be cancelled. No fetch ends. -/
theorem exists_run_visited (b : Setup) (s : State) (upcoming : Option Appointment)
    (instant : Instant) :
    ∃ labels, run b s labels = some (visited s upcoming instant).1 ∧
      ∀ i outcome, Label.finish i outcome ∉ labels := by
  have hcancel (s : State) (t : Timeline) (hforest : t.forest = s.forest) (hnow : t.now = s.now) :
      ∃ labels, run b s labels =
        some { s with forest := t.settle.forest, now := t.settle.now } ∧
          ∀ i outcome, Label.finish i outcome ∉ labels := by
    cases hdue : t.due? with
    | none =>
      refine ⟨[], ?_, by simp⟩
      rw [Timeline.settle, hdue, hforest, hnow]
      rfl
    | some a =>
      refine ⟨[.cancel a.token], ?_, by simp⟩
      rw [Timeline.settle, hdue]
      show some (s.cancel a.token) = some { s with forest := t.forest.cancel a.token, now := t.now }
      rw [hforest, hnow, State.cancel]
  unfold visited Timeline.visit
  by_cases hle : s.now ≤ instant
  · obtain ⟨labels, hrun, hends⟩ := hcancel { s with now := instant }
      { forest := s.forest, now := instant, upcoming } rfl rfl
    refine ⟨.elapse instant :: labels, ?_, by simpa using hends⟩
    have hstep : step b s (.elapse instant) = some { s with now := instant } := if_pos hle
    rw [run, hstep, if_pos hle]
    exact hrun
  · rw [if_neg hle]
    exact hcancel s _ rfl rfl

/-- A run over instants is a visit to the first and, if there is more to do, a run over the others.
-/
theorem runOver_cons (b : Setup) (fetcher : Fetcher) (instant : Instant) (later : List Instant)
    (upcoming : Option Appointment) (s : State) :
    runOver b fetcher (instant :: later) upcoming s =
      if (settle b fetcher (visited s upcoming instant).1).isFinished then
        some (settle b fetcher (visited s upcoming instant).1, (visited s upcoming instant).2)
      else runOver b fetcher later (visited s upcoming instant).2
        (settle b fetcher (visited s upcoming instant).1) := rfl

/-- **What runs on the clock is a run**, and fetches end as planned in it. -/
theorem exists_run_of_runOver {instants : List Instant} {upcoming' : Option Appointment}
    (hj : s.JoinedEnded) (h : runOver b fetcher instants upcoming s = some (s', upcoming')) :
    (∃ labels, run b s labels = some s' ∧ PlannedRun b fetcher s labels) ∧
      s'.isFinished = true := by
  induction instants generalizing s upcoming with
  | nil => cases h
  | cons instant later ih =>
    obtain ⟨visit, hvisit, hends⟩ := exists_run_visited b s upcoming instant
    have hj' : (visited s upcoming instant).1.JoinedEnded :=
      run_induction hj (fun _ _ _ _ _ hj ht => joinedEnded_transition hj ht) hvisit
    have hmoves : Moves b fetcher (visited s upcoming instant).1
        (settle b fetcher (visited s upcoming instant).1) := (settle_spec hj').1
    obtain ⟨moves, hmoves', hplanned⟩ := hmoves.exists_run
    have hplanned : PlannedRun b fetcher s (visit ++ moves) :=
      (plannedRun_of_polled fun i outcome hmem => absurd hmem (hends i outcome)).append hvisit
        hplanned
    have hrun : run b s (visit ++ moves) =
        some (settle b fetcher (visited s upcoming instant).1) := by
      rw [run_append, hvisit]
      exact hmoves'
    rw [runOver_cons] at h
    split at h
    · cases h
      exact ⟨⟨_, hrun, hplanned⟩, by assumption⟩
    · obtain ⟨⟨rest, hrest, hplanned'⟩, hfin⟩ := ih (hmoves.joinedEnded hj') h
      refine ⟨⟨visit ++ moves ++ rest, ?_, hplanned.append hrun hplanned'⟩, hfin⟩
      rw [run_append, hrun]
      exact hrest

/-! ## A visit keeps to the timetable

Time may pass up to the next time in the timetable, and what that time is for happens at once. -/

/-- Whoever cancels the request of a batch cancels the batch. -/
theorem Nested.isCancelled_cancel_request {f : Forest} (hn : Nested b f) :
    (f.cancel b.requestToken).isCancelled b.scope.token = true := by
  refine (hn.cancel b.requestToken).cancelled ?_
  rw [Forest.isCancelled_cancel_iff hn.wellFormed.unlocked]
  cases hc : f.isCancelled b.requestToken with
  | true => exact .inl rfl
  | false =>
    refine .inr (.root ?_ hc)
    -- a request that there is not would have no links
    by_contra hge
    have hlink := hn.linked hc
    rw [Forest.childrenOf_of_length_le (Nat.not_lt.mp hge)] at hlink
    cases hlink

/-- What a phase says about the time stays true while time passes, as far as its fetch is not
late. -/
theorem Phase.OnTime.later {tag : Include} {e e' : Nat} {c : Bool} {p : Phase}
    (h : p.OnTime tt start tag e c) (hle : e ≤ e') (hwaiting : p = .waiting → e' = 0)
    (hfetching : ∀ since, p = .fetching since → e' ≤ tt.own tag ∧ e' ≤ tt.limit tag) :
    p.OnTime tt start tag e' c := by
  have hdelivered {data : Bytes} (hd : tt.Delivered tag e data) : tt.Delivered tag e' data :=
    { hd with own_le := Nat.le_trans hd.own_le hle }
  cases p with
  | waiting => exact hwaiting rfl
  | fetching since => exact ⟨h.1, hfetching since rfl⟩
  | fetched | offering | published => exact ⟨hdelivered h.1, h.2⟩
  | _ => exact h

/-- **A visit in time keeps to the timetable.** -/
theorem Tracked.visit (h : Tracked b tt start tags s) (hawaits : Awaits b tt start s upcoming)
    (hle : s.now ≤ instant)
    (hwaiting : ∀ (i : Nat) (w : Worker), s.workers[i]? = some w → w.phase = .waiting →
      instant.since start = 0)
    (hfetching : ∀ (i : Nat) (w : Worker), s.workers[i]? = some w →
      ∀ since, w.phase = .fetching since →
        instant.since start ≤ tt.own w.tag ∧ instant.since start ≤ tt.limit w.tag)
    (hfailing : (instant.since start : ℕ∞) ≤ tt.failing tags)
    (hcomplete : instant.since start ≤ tt.complete tags) :
    OnTime b tt start tags (visited s upcoming instant).1 ∧
      Awaits b tt start (visited s upcoming instant).1 (visited s upcoming instant).2 := by
  obtain ⟨labels, hb⟩ := h.bookkeeping
  have helapse : Transition b s (.elapse instant) { s with now := instant } := .elapse hle
  have hb' := bookkeeping_transition hb helapse
  have hstart : start ≤ instant := Nat.le_trans h.le_now hle
  have hsince : s.now.since start ≤ instant.since start := Instant.since_le_since hle start
  -- no fetch and no worker has its time pass over it
  have hphase : ∀ (i : Nat) (w : Worker), s.workers[i]? = some w →
      w.phase.OnTime tt start w.tag (instant.since start)
        (s.forest.isCancelled b.scope.token) := fun i w hw =>
    (h.phase i w hw).later hsince (hwaiting i w hw) (hfetching i w hw)
  have hundisturbed (hearly : (instant.since start : ℕ∞) < tt.failing tags) : Undisturbed b s :=
    h.undisturbed (lt_of_le_of_lt (by exact_mod_cast hsince) hearly)
  rcases visited_cases upcoming hle with ⟨hvisited, hlater⟩ | ⟨a, ha, hdue, hvisited⟩
  · rw [hvisited]
    refine ⟨?_, hawaits.of_none, hawaits.of_some⟩
    refine
      { bookkeeping := ⟨_, hb'⟩, nested := h.nested, le_now := hstart, limit := h.limit
        phase := hphase, crashed := h.crashed, undisturbed := fun hearly => ?undisturbed
        cancelled := fun hcancellation => ?cancelled, le_failing := hfailing
        le_complete := hcomplete }
    case undisturbed =>
      obtain ⟨ha, hx, hc, hfine⟩ := hundisturbed hearly
      exact ⟨ha, hx, hc, hfine⟩
    -- if the request should be cancelled by now, the batch is cancelled already
    case cancelled =>
      show s.forest.isCancelled b.scope.token = true
      cases hupcoming : upcoming with
      | none =>
        rcases hawaits.of_none hupcoming with htop | hc
        · rw [htop, top_le_iff] at hcancellation
          exact absurd hcancellation (ENat.natCast_ne_top _)
        · exact hc
      | some a =>
        obtain ⟨-, hat | hc⟩ := hawaits.of_some a hupcoming
        · have hlt : instant.since start < a.instant.since start :=
            Nat.sub_lt_sub_right hstart (hlater a hupcoming)
          rw [hat] at hcancellation
          exact absurd hlt (Nat.not_lt.mpr (by exact_mod_cast hcancellation))
        · exact hc
  · -- the request is cancelled, and the batch with it
    obtain ⟨htoken, hat⟩ := hawaits.of_some a ha
    rw [hvisited, htoken]
    have hcancel : Transition b { s with now := instant } (.cancel b.requestToken)
        ({ s with now := instant }.cancel b.requestToken) := .cancel _
    have hup : ({ s with now := instant }.cancel b.requestToken).forest.isCancelled b.scope.token =
        true := h.nested.isCancelled_cancel_request
    refine ⟨?_, fun _ => .inr hup, nofun⟩
    refine
      { bookkeeping := ⟨_, bookkeeping_transition hb' hcancel⟩, nested := h.nested.cancel _
        le_now := hstart, limit := h.limit, phase := fun i w hw => (hphase i w hw).mono fun _ => hup
        crashed := fun _ _ _ _ _ _ _ => hup, undisturbed := fun hearly => ?_
        cancelled := fun _ => hup, le_failing := hfailing, le_complete := hcomplete }
    -- something has gone wrong by now, so nothing is claimed of a batch without trouble
    exfalso
    rcases hat with hat | hc
    · have hlt := (Timetable.lt_failing_iff.mp hearly).2.2
      rw [hat] at hlt
      have hle : a.instant.since start ≤ instant.since start := Instant.since_le_since hdue start
      exact absurd hle (Nat.not_le.mpr (by exact_mod_cast hlt))
    · have hc' := (hundisturbed hearly).isCancelled
      rw [hc] at hc'
      cases hc'

/-! ## From one visit to the next

What the timetable says holds behind each visit, once everything that can happen at that instant has
happened. -/

/-- A batch that is cancelled stays so. -/
theorem OnTime.isCancelled_moves (h : OnTime b tt start tags s)
    (hfits : tt.Fits b fetcher start tags) (hmoves : Moves b fetcher s s')
    (hup : s.forest.isCancelled b.scope.token = true) :
    s'.forest.isCancelled b.scope.token = true := by
  induction hmoves with
  | refl => exact hup
  | tail hmoves hmove ih =>
    have hn := (h.moves hfits hmoves).nested
    cases hmove with
    | own hl ht => exact isCancelled_transition hn ht ih
    | finish _ _ _ ht =>
      split at ht
      · exact isCancelled_transition (hn.cancel _) ht hn.isCancelled_cancel
      · exact isCancelled_transition hn ht ih

/-- Settling keeps to the timetable, and takes no time. -/
theorem OnTime.settle (h : OnTime b tt start tags s) (hfits : tt.Fits b fetcher start tags)
    (hawaits : Awaits b tt start s upcoming) :
    OnTime b tt start tags (settle b fetcher s) ∧ Quiet b fetcher (settle b fetcher s) ∧
      (Batch.settle b fetcher s).now = s.now ∧
        Awaits b tt start (Batch.settle b fetcher s) upcoming := by
  obtain ⟨hmoves, hquiet⟩ : Moves b fetcher s (Batch.settle b fetcher s) ∧
      Quiet b fetcher (Batch.settle b fetcher s) := settle_spec h.joinedEnded
  have hup := h.isCancelled_moves hfits hmoves
  refine ⟨h.moves hfits hmoves, hquiet, Moves.now_eq hmoves, fun hnone => ?_, fun a ha => ?_⟩
  · exact (hawaits.of_none hnone).imp_right hup
  · obtain ⟨htoken, hat⟩ := hawaits.of_some a ha
    exact ⟨htoken, hat.imp_right hup⟩

/-- At this time something can happen. -/
def Timetable.IsEvent (tt : Timetable) (tags : List Include) (e : Nat) : Prop :=
  (∃ tag ∈ tags, e = tt.own tag ∨ e = tt.limit tag) ∨ (e : ℕ∞) = tt.deadline ∨
    (e : ℕ∞) = tt.cancellation

/-- In a quiet batch that is not finished some fetch is under way, and the next thing that happens
to it is still to come. -/
theorem OnTime.exists_fetching (h : OnTime b tt start tags s)
    (hfits : tt.Fits b fetcher start tags) (hq : Quiet b fetcher s)
    (hunfinished : s.isFinished = false) :
    (∃ (i : Nat) (w : Worker), s.workers[i]? = some w ∧ w.phase = .fetching start) ∧
      s.forest.isCancelled b.scope.token = false ∧ (s.now.since start : ℕ∞) < tt.deadline ∧
      ∀ (i : Nat) (w : Worker), s.workers[i]? = some w → w.phase.isEnded = false →
        w.phase = .fetching start ∧ s.now.since start < tt.limit w.tag ∧
          s.now.since start < tt.own w.tag := by
  have hall : ∀ (i : Nat) (w : Worker), s.workers[i]? = some w → w.phase.isEnded = false →
      w.phase = .fetching start ∧ s.forest.isCancelled b.scope.token = false ∧
        (s.now.since start : ℕ∞) < tt.deadline ∧ s.now.since start < tt.limit w.tag ∧
          s.now.since start < tt.own w.tag := by
    intro i w hw hp
    rcases hq.worker hw with ⟨since, hfetching, hstop⟩ | ⟨hended, -⟩
    · have hphase := h.phase i w hw
      rw [hfetching] at hphase
      obtain ⟨rfl, -⟩ := hphase
      have hspec := h.stop?_spec hfits hw
      rw [hstop] at hspec
      exact ⟨hfetching, hspec⟩
    · rw [hended] at hp
      cases hp
  -- a quiet batch whose workers have all ended is finished
  have hexists : ∃ (i : Nat) (w : Worker), s.workers[i]? = some w ∧ w.phase.isEnded = false := by
    by_contra hnot
    have hended : s.isFinished = true := (hq.isFinished_iff h.joinedEnded).mpr fun i w hw => by
      by_contra hp
      exact hnot ⟨i, w, hw, by simpa using hp⟩
    rw [hended] at hunfinished
    cases hunfinished
  obtain ⟨i, w, hw, hp⟩ := hexists
  obtain ⟨hfetching, hc, hdeadline, -⟩ := hall i w hw hp
  refine ⟨⟨i, w, hw, hfetching⟩, hc, hdeadline, fun i w hw hp => ?_⟩
  obtain ⟨hfetching, -, -, hlimit, hown⟩ := hall i w hw hp
  exact ⟨hfetching, hlimit, hown⟩

/-- In a quiet batch that is not cancelled, whoever has ended has delivered. -/
theorem OnTime.published_of_isEnded (h : OnTime b tt start tags s) (hq : Quiet b fetcher s)
    (hc : s.forest.isCancelled b.scope.token = false) (hw : s.workers[i]? = some w)
    (he : w.phase.isEnded = true) : ∃ data, w.phase = .published data := by
  have hphase := h.phase i w hw
  cases hp : w.phase with
  | published data => exact ⟨data, rfl⟩
  | failed | unpublished =>
    rw [hp] at hphase
    have : s.forest.isCancelled b.scope.token = true := hphase
    rw [hc] at this
    cases this
  | crashed message =>
    have := h.crashed i w hw message (hq.isJoined hw he) hp hq.alarm_eq_none
    rw [hc] at this
    cases this
  | waiting | fetching | fetched | offering | failing | withdrawing => rw [hp] at he; cases he

/-- A worker that has handed over its fragment was in time. -/
theorem OnTime.inTime_of_published (h : OnTime b tt start tags s) (hw : s.workers[i]? = some w)
    {data : Bytes} (hp : w.phase = .published data) :
    tt.InTime w.tag ∧ tt.own w.tag ≤ s.now.since start := by
  have hphase := h.phase i w hw
  rw [hp] at hphase
  obtain ⟨hd, hcancels⟩ := hphase
  exact ⟨Timetable.inTime_iff.mpr ⟨FetchPlan.delivers_iff.mpr ⟨⟨data, hd.outcome⟩, hcancels⟩,
    hd.lt_limit, hd.lt_deadline, hd.lt_cancellation⟩, hd.own_le⟩

/-- **The next visit is in time** if it leaves out no time at which something can happen. -/
theorem OnTime.next (h : OnTime b tt start tags s) (hfits : tt.Fits b fetcher start tags)
    (hq : Quiet b fetcher s) (hunfinished : s.isFinished = false)
    (hawaits : Awaits b tt start s upcoming) (hle : s.now ≤ instant)
    (hnext : ∀ e, tt.IsEvent tags e → s.now.since start < e → instant.since start ≤ e) :
    OnTime b tt start tags (visited s upcoming instant).1 ∧
      Awaits b tt start (visited s upcoming instant).1 (visited s upcoming instant).2 := by
  obtain ⟨⟨i, w, hw, hp⟩, hc, hdeadline, hunended⟩ := h.exists_fetching hfits hq hunfinished
  -- what is still to come is not left behind by the next visit
  have hle_time {time : ℕ∞} (hevent : ∀ e : Nat, (e : ℕ∞) = time → tt.IsEvent tags e)
      (hlt : (s.now.since start : ℕ∞) < time) : (instant.since start : ℕ∞) ≤ time := by
    by_cases htop : time = ⊤
    · rw [htop]
      exact le_top
    · obtain ⟨e, rfl⟩ := ENat.ne_top_iff_exists.mp htop
      exact_mod_cast hnext e (hevent e rfl) (by exact_mod_cast hlt)
  have hcancellation : (s.now.since start : ℕ∞) < tt.cancellation := by
    rw [← not_le]
    intro hle
    rw [h.cancelled hle] at hc
    cases hc
  have hworker : ∀ (i : Nat) (w : Worker), s.workers[i]? = some w → w.phase.isEnded = false →
      instant.since start ≤ tt.own w.tag ∧ instant.since start ≤ tt.limit w.tag := by
    intro i w hw hp
    obtain ⟨-, hlimit, hown⟩ := hunended i w hw hp
    have hmem := h.tag_mem hw
    exact ⟨hnext _ (.inl ⟨w.tag, hmem, .inl rfl⟩) hown,
      hnext _ (.inl ⟨w.tag, hmem, .inr rfl⟩) hlimit⟩
  have hdeadline' : (instant.since start : ℕ∞) ≤ tt.deadline :=
    hle_time (fun _ heq => .inr (.inl heq)) hdeadline
  have hcancellation' : (instant.since start : ℕ∞) ≤ tt.cancellation :=
    hle_time (fun _ heq => .inr (.inr heq)) hcancellation
  refine h.toTracked.visit hawaits hle (fun i w hw hp => ?_) (fun i w hw since hp => ?_)
    (Timetable.le_failing_iff.mpr ⟨fun tag hmem => ?_, hdeadline', hcancellation'⟩) ?_
  · -- nobody waits in a quiet batch
    obtain ⟨hfetching, -⟩ := hunended i w hw (by rw [hp]; rfl)
    rw [hp] at hfetching
    cases hfetching
  · exact hworker i w hw (by rw [hp]; rfl)
  · obtain ⟨labels, hb⟩ := h.bookkeeping
    rw [← hb.recorded.map_tag] at hmem
    obtain ⟨w, hworkers, rfl⟩ := List.mem_map.mp hmem
    obtain ⟨i, hw⟩ := List.mem_iff_getElem?.mp hworkers
    cases he : w.phase.isEnded with
    | true =>
      obtain ⟨data, hp⟩ := h.published_of_isEnded hq hc hw he
      rw [(h.inTime_of_published hw hp).1.failure_eq_top]
      exact le_top
    | false =>
      obtain ⟨hown, hlimit⟩ := hworker i w hw he
      exact Timetable.le_failure hown hlimit
  · exact Nat.le_trans (hworker i w hw (by rw [hp]; rfl)).1
      (Timetable.own_le_complete (h.tag_mem hw))

/-! ## To the end

When the last time has come there is nothing left to wait for. -/

/-- After a visit the clock shows its instant. -/
theorem now_visited (hle : s.now ≤ instant) : (visited s upcoming instant).1.now = instant := by
  rcases visited_cases upcoming hle with ⟨hvisited, -⟩ | ⟨a, -, -, hvisited⟩
  · rw [hvisited]
  · rw [hvisited]
    rfl

/-- **A batch on a clock comes to its end**, if none of the times at which something can happen is
left out. The induction is on the instants that are still to be visited. -/
theorem runOver_spec (hfits : tt.Fits b fetcher start tags) {later : List Instant}
    (h : OnTime b tt start tags (visited s upcoming instant).1)
    (hawaits : Awaits b tt start (visited s upcoming instant).1 (visited s upcoming instant).2)
    (hle : s.now ≤ instant) (hsorted : (instant :: later).Pairwise (· ≤ ·))
    (hcovers : ∀ e, tt.IsEvent tags e → instant.since start < e →
      ∃ next ∈ later, next.since start = e) :
    ∃ s' upcoming', runOver b fetcher (instant :: later) upcoming s = some (s', upcoming') ∧
      OnTime b tt start tags s' ∧ Quiet b fetcher s' ∧ s'.isFinished = true := by
  induction later generalizing s upcoming instant with
  | nil =>
    obtain ⟨hontime, hquiet, hnow, -⟩ := h.settle hfits hawaits
    cases hfin : (settle b fetcher (visited s upcoming instant).1).isFinished with
    | true =>
      exact ⟨_, _, by rw [runOver_cons, if_pos hfin], hontime, hquiet, hfin⟩
    | false =>
      -- some fetch is under way, and its own end is still to come
      obtain ⟨⟨i, w, hw, hp⟩, -, -, hunended⟩ := hontime.exists_fetching hfits hquiet hfin
      obtain ⟨-, -, hown⟩ := hunended i w hw (by rw [hp]; rfl)
      rw [hnow, now_visited hle] at hown
      obtain ⟨next, hmem, -⟩ := hcovers _ (.inl ⟨w.tag, hontime.tag_mem hw, .inl rfl⟩) hown
      cases hmem
  | cons next later ih =>
    obtain ⟨hontime, hquiet, hnow, hawaits'⟩ := h.settle hfits hawaits
    rw [now_visited hle] at hnow
    cases hfin : (settle b fetcher (visited s upcoming instant).1).isFinished with
    | true =>
      exact ⟨_, _, by rw [runOver_cons, if_pos hfin], hontime, hquiet, hfin⟩
    | false =>
      obtain ⟨hfirst, hsorted'⟩ := List.pairwise_cons.mp hsorted
      have hle' : (settle b fetcher (visited s upcoming instant).1).now ≤ next := by
        rw [hnow]
        exact hfirst next List.mem_cons_self
      -- the next instant is the first one of those at which something can happen
      have hearliest : ∀ e, tt.IsEvent tags e →
          (settle b fetcher (visited s upcoming instant).1).now.since start < e →
            next.since start ≤ e := by
        intro e hevent hlt
        rw [hnow] at hlt
        obtain ⟨visit, hmem, rfl⟩ := hcovers e hevent hlt
        rcases List.mem_cons.mp hmem with rfl | hmem
        · exact Nat.le_refl _
        · exact Instant.since_le_since ((List.pairwise_cons.mp hsorted').1 visit hmem) start
      obtain ⟨hnext, hawaits''⟩ := hontime.next hfits hquiet hfin hawaits' hle' hearliest
      rw [runOver_cons, if_neg (by rw [hfin]; exact Bool.false_ne_true)]
      refine ih hnext hawaits'' hle' hsorted' fun e hevent hlt => ?_
      have hlt' : instant.since start < e :=
        Nat.lt_of_le_of_lt (Instant.since_le_since (hfirst next List.mem_cons_self) start) hlt
      obtain ⟨visit, hmem, heq⟩ := hcovers e hevent hlt'
      rcases List.mem_cons.mp hmem with rfl | hmem
      · rw [heq] at hlt
        exact absurd hlt (Nat.lt_irrefl _)
      · exact ⟨visit, hmem, heq⟩

/-- What a batch that has come to its end on time ends with, and when. -/
theorem OnTime.result_spec (h : OnTime b tt start tags s) (hq : Quiet b fetcher s)
    (hfin : s.isFinished = true) (hne : tags ≠ []) :
    ((∀ tag ∈ tags, tt.InTime tag) →
      (∃ fragments, s.result = .ok fragments) ∧ s.now.since start = tt.complete tags) ∧
    ((¬ ∀ tag ∈ tags, tt.InTime tag) →
      (∃ error, s.result = .error error) ∧ (s.now.since start : ℕ∞) = tt.failing tags) := by
  obtain ⟨labels, hb⟩ := h.bookkeeping
  have hended := (hq.isFinished_iff h.joinedEnded).mp hfin
  have hnone := firstError_eq_none_iff hb hfin
  -- all tags have workers
  have htags {p : Include → Prop}
      (hp : ∀ (i : Nat) (w : Worker), s.workers[i]? = some w → p w.tag) : ∀ tag ∈ tags, p tag := by
    rw [← hb.recorded.map_tag, List.forall_mem_map]
    intro w hmem
    obtain ⟨i, hw⟩ := List.mem_iff_getElem?.mp hmem
    exact hp i w hw
  have hinTime : s.firstError = none → ∀ tag ∈ tags, tt.InTime tag := by
    intro hfirst
    refine htags fun i w hw => ?_
    obtain ⟨data, hp⟩ := (hnone.mp hfirst).1 w (List.mem_of_getElem? hw)
    exact (h.inTime_of_published hw hp).1
  have hearly : (s.now.since start : ℕ∞) < tt.failing tags →
      s.firstError = none ∧ tt.complete tags ≤ s.now.since start := by
    intro hlt
    obtain ⟨-, hx, hc, -⟩ := h.undisturbed hlt
    have hpublished (i : Nat) (w : Worker) (hw : s.workers[i]? = some w) :
        ∃ data, w.phase = .published data :=
      h.published_of_isEnded hq hc hw (hended i w hw)
    refine ⟨hnone.mpr ⟨fun w hmem => ?_, hx⟩, Timetable.complete_le (htags fun i w hw => ?_)⟩
    · obtain ⟨i, hw⟩ := List.mem_iff_getElem?.mp hmem
      exact hpublished i w hw
    · obtain ⟨data, hp⟩ := hpublished i w hw
      exact (h.inTime_of_published hw hp).2
  refine ⟨fun hall => ?_, fun hnot => ⟨?_, ?_⟩⟩
  · have hlt : (s.now.since start : ℕ∞) < tt.failing tags :=
      lt_of_le_of_lt (by exact_mod_cast h.le_complete) ((Timetable.forall_inTime_iff hne).mp hall)
    obtain ⟨hfirst, hle⟩ := hearly hlt
    exact ⟨⟨_, result_eq_ok_iff.mpr ⟨hfirst, rfl⟩⟩, Nat.le_antisymm h.le_complete hle⟩
  · obtain ⟨error, herror⟩ := Option.ne_none_iff_exists'.mp fun hfirst => hnot (hinTime hfirst)
    exact ⟨error, result_eq_error_iff.mpr herror⟩
  · exact le_antisymm h.le_failing (not_lt.mp fun hlt => hnot (hinTime (hearly hlt).1))

end EdgeInclude.Batch
