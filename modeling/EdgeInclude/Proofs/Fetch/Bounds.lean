import Mathlib.Data.ENat.Lattice
import EdgeInclude.Fetch.Table
import EdgeInclude.Proofs.Cancellation.Kinship
import EdgeInclude.Proofs.Visits

/-!
# Which bound ends work, and when

Bounded work ends at the first of four times: when its scope is cancelled, at the deadline of the scope,
when it has taken as long as it may, and at its own end. Of those that come at once the earlier one in
this list counts.

* **`Timeline.untilCancelled`**: how long until a token is cancelled. **`visit_spec`**: a visit keeps to it.
* **`Work.stop?_eq`**: what ends work after some time. **`Work.runOver_reached`**, **`Work.run_spec`**: what
  ends the whole run.
* **`Work.EndsAtFirstBound`**: how bounded work ends, and when.
* **`fetch_ends_at_first_bound`**: so it does, and a fetch from a fragment table with it.
* **`long_timeout_cut_short`**: a timeout of more than thirty years is not waited for.
-/

namespace EdgeInclude

open Cancellation

/-! ## When a token is cancelled

The one cancellation that is still to come reaches a token at its instant or not at all, so the time
at which a token is cancelled is known in advance and a visit does not move it. -/

namespace Timeline

variable {t : Timeline} {start instant : Instant} {token : Token}

/-- When the cancellation to come reaches a token, if it does. -/
def reaching? (t : Timeline) (token : Token) : Option Instant :=
  (t.upcoming.filter fun a => (t.forest.cancel a.token).isCancelled token).map Appointment.instant

/-- How long from an instant on until a token is cancelled. -/
def untilCancelled (t : Timeline) (start : Instant) (token : Token) : ℕ∞ :=
  if t.forest.isCancelled token then 0 else start.until (t.reaching? token)

theorem untilCancelled_of_isCancelled (h : t.forest.isCancelled token = true) :
    t.untilCancelled start token = 0 :=
  if_pos h

theorem untilCancelled_of_not (h : t.forest.isCancelled token = false) :
    t.untilCancelled start token = start.until (t.reaching? token) :=
  if_neg (by rw [h]; exact Bool.false_ne_true)

/-- Either nothing is due, or the cancellation to come comes about. -/
theorem settle_cases (t : Timeline) :
    (t.settle = t ∧ ∀ a, t.upcoming = some a → t.now < a.instant) ∨
      ∃ a, t.upcoming = some a ∧ a.instant ≤ t.now ∧
        t.settle = { t with forest := t.forest.cancel a.token, upcoming := none } := by
  by_cases hdue : ∃ a, t.upcoming = some a ∧ a.instant ≤ t.now
  · obtain ⟨a, ha, hle⟩ := hdue
    exact .inr ⟨a, ha, hle, settle_of_due ha hle⟩
  · have hlater : ∀ a, t.upcoming = some a → t.now < a.instant := by
      intro a ha
      exact Nat.not_le.mp fun hle => hdue ⟨a, ha, hle⟩
    exact .inl ⟨settle_of_not_due hlater, hlater⟩

/-- A token that is cancelled stays so. -/
theorem isCancelled_settle_of (hunlocked : ∀ u, t.forest.isLocked u = false)
    (h : t.forest.isCancelled token = true) : t.settle.forest.isCancelled token = true := by
  unfold settle
  split
  · exact Forest.isCancelled_cancel_of hunlocked h
  · exact h

/-- When the cancellation to come reaches a token. -/
theorem reaching?_eq {a : Appointment} (ha : t.upcoming = some a) :
    t.reaching? token =
      if (t.forest.cancel a.token).isCancelled token then some a.instant else none := by
  rw [reaching?, ha, Option.filter_some]
  split <;> rfl

theorem lt_of_reaching? (hlater : ∀ a, t.upcoming = some a → t.now < a.instant)
    (h : t.reaching? token = some instant) : t.now < instant := by
  obtain ⟨a, ha, rfl⟩ := Option.map_eq_some_iff.mp h
  exact hlater a (Option.filter_eq_some_iff.mp ha).1

/-- When what is due has come about, the token is cancelled exactly if its time has come. -/
theorem isCancelled_settle_iff (hunlocked : ∀ u, t.forest.isLocked u = false)
    (hle : start ≤ t.now) : t.settle.forest.isCancelled token = true ↔
      t.untilCancelled start token ≤ (t.now.since start : ℕ∞) := by
  by_cases hup : t.forest.isCancelled token = true
  · rw [untilCancelled_of_isCancelled hup]
    exact iff_of_true (isCancelled_settle_of hunlocked hup) bot_le
  · rw [untilCancelled_of_not (Bool.eq_false_iff.mpr hup)]
    rcases settle_cases t with ⟨hsettle, hlater⟩ | ⟨a, ha, hdue, hsettle⟩
    · -- nothing is due yet, so its time, if it has one, is later
      rw [hsettle]
      refine iff_of_false hup (not_le.mpr ?_)
      cases hreaching : t.reaching? token with
      | none => exact ENat.natCast_lt_top _
      | some instant =>
        have hnow : t.now.nanos < instant.nanos := lt_of_reaching? hlater hreaching
        have hstart : start.nanos ≤ t.now.nanos := hle
        show ((t.now.since start : ℕ) : ℕ∞) < ((instant.since start : ℕ) : ℕ∞)
        rw [Nat.cast_lt, Instant.since, Instant.since]
        omega
    · rw [hsettle, reaching?_eq ha]
      split
      · rename_i hreached
        exact iff_of_true hreached (Nat.cast_le.mpr (Instant.since_le_since hdue start))
      · rename_i hmissed
        exact iff_of_false hmissed (not_le.mpr (ENat.natCast_lt_top _))

/-- If the token is still not cancelled, its time is what it was. -/
theorem untilCancelled_settle (hunlocked : ∀ u, t.forest.isLocked u = false)
    (h : t.settle.forest.isCancelled token = false) :
    t.settle.untilCancelled start token = t.untilCancelled start token := by
  have hdown : t.forest.isCancelled token = false := by
    rw [← Bool.not_eq_true]
    intro hup
    rw [isCancelled_settle_of hunlocked hup] at h
    cases h
  rcases settle_cases t with ⟨hsettle, -⟩ | ⟨a, ha, -, hsettle⟩
  · rw [hsettle]
  · rw [hsettle] at h ⊢
    have hmissed : ¬ (t.forest.cancel a.token).isCancelled token = true := Bool.eq_false_iff.mp h
    rw [untilCancelled_of_not h, untilCancelled_of_not hdown, reaching?_eq ha, if_neg hmissed]
    rfl

/-- Cancelling leaves no token locked. -/
theorem isLocked_settle (hunlocked : ∀ u, t.forest.isLocked u = false) :
    ∀ u, t.settle.forest.isLocked u = false := by
  intro u
  rcases settle_cases t with ⟨hsettle, -⟩ | ⟨a, -, -, hsettle⟩
  · rw [hsettle]
    exact hunlocked u
  · rw [hsettle]
    exact (Forest.isLocked_cancel hunlocked).trans (hunlocked u)

/-- **What a visit to a later instant does to a token.** It is cancelled then exactly if its time has
come, and otherwise its time is what it was. -/
theorem visit_spec (token : Token) (hunlocked : ∀ u, t.forest.isLocked u = false)
    (hstart : start ≤ t.now) (hle : t.now ≤ instant) :
    (t.visit instant).now = instant ∧ (∀ u, (t.visit instant).forest.isLocked u = false) ∧
      ((t.visit instant).forest.isCancelled token = true ↔
        t.untilCancelled start token ≤ (instant.since start : ℕ∞)) ∧
      ((t.visit instant).forest.isCancelled token = false →
        (t.visit instant).untilCancelled start token = t.untilCancelled start token) := by
  have hlater : start ≤ ({ t with now := instant } : Timeline).now := Nat.le_trans hstart hle
  unfold visit
  rw [if_pos hle]
  exact ⟨now_settle _, isLocked_settle hunlocked, isCancelled_settle_iff hunlocked hlater,
    untilCancelled_settle hunlocked⟩

end Timeline

/-! ## What ends work

The conditions that a poll checks, in terms of the time that has passed. -/

namespace Work

variable {w : Work} {scope : Scope} {t : Timeline}

/-- How long the work takes to come to its own end. -/
def own (w : Work) : ℕ∞ :=
  match w.takes with
  | some n => (n : ℕ)
  | none => ⊤

/-- How long the timer for its timeout runs. -/
def limit (w : Work) : Nat :=
  min w.timeout.nanos Instant.farNanos

/-- How long until its scope is given up. -/
noncomputable def givenUp (w : Work) (scope : Scope) (t : Timeline) : ℕ∞ :=
  min (t.untilCancelled w.start scope.token) (w.start.until scope.deadline)

/-- The first of the four times. -/
noncomputable def first (w : Work) (scope : Scope) (t : Timeline) : ℕ∞ :=
  min (w.givenUp scope t) (min (w.limit : ℕ∞) w.own)

/-- What ends it at that time. -/
noncomputable def stop (w : Work) (scope : Scope) (t : Timeline) : Stop :=
  if w.givenUp scope t ≤ min (w.limit : ℕ∞) w.own then .scope
  else if (w.limit : ℕ∞) ≤ w.own then .timeout
  else .itself

/-- What ends it when some time has passed, if something does. -/
noncomputable def stopAfter? (w : Work) (scope : Scope) (t : Timeline) (elapsed : Nat) :
    Option Stop :=
  if w.givenUp scope t ≤ (elapsed : ℕ∞) then some .scope
  else if (w.limit : ℕ∞) ≤ (elapsed : ℕ∞) then some .timeout
  else if w.own ≤ (elapsed : ℕ∞) then some .itself
  else none

/-- The timer of the timeout has gone off when the time is up. -/
theorem limit_le_iff {now : Instant} (hle : w.start ≤ now) :
    w.timeoutNanos ≤ now.nanos ↔ (w.limit : ℕ∞) ≤ (now.since w.start : ℕ∞) := by
  have hstart : w.start.nanos ≤ now.nanos := hle
  rw [Nat.cast_le, timeoutNanos, Instant.timerNanos, limit, Instant.since]
  omega

/-- The work has come to its own end when it has taken its time. -/
theorem own_le_iff {now : Instant} (hle : w.start ≤ now) :
    w.ownNanos?.any (fun n => n ≤ now.nanos) = true ↔ w.own ≤ (now.since w.start : ℕ∞) := by
  have hstart : w.start.nanos ≤ now.nanos := hle
  unfold ownNanos? own
  cases w.takes with
  | none => simp
  | some n =>
    simp only [Option.map_some, Option.any_some, decide_eq_true_eq, Nat.cast_le, Instant.since]
    omega

variable {t' : Timeline}

/-- **What ends bounded work** some time after it began. -/
theorem stop?_eq (hbounded : w.isBounded = true) (hle : w.start ≤ t'.now)
    (hcancelled : t'.forest.isCancelled scope.token = true ↔
      t.untilCancelled w.start scope.token ≤ (t'.now.since w.start : ℕ∞)) :
    w.stop? scope t'.forest t'.now = w.stopAfter? scope t (t'.now.since w.start) := by
  have hdone : scope.isDone t'.forest t'.now = true ↔
      w.givenUp scope t ≤ (t'.now.since w.start : ℕ∞) := by
    rw [Scope.isDone, Bool.or_eq_true, hcancelled, Scope.isOverdue_iff hle, givenUp, min_le_iff]
  unfold stop? stopAfter?
  simp only [hbounded, Bool.true_and, decide_eq_true_eq, hdone, limit_le_iff hle, own_le_iff hle]

variable {elapsed : Nat}

/-- Before the first of the times nothing ends it. -/
theorem stopAfter?_of_lt (hearly : (elapsed : ℕ∞) < w.first scope t) :
    w.stopAfter? scope t elapsed = none := by
  obtain ⟨hgiven, hrest⟩ := lt_min_iff.mp hearly
  obtain ⟨hlimit, hown⟩ := lt_min_iff.mp hrest
  rw [stopAfter?, if_neg (not_le.mpr hgiven), if_neg (not_le.mpr hlimit), if_neg (not_le.mpr hown)]

/-- From the first of the times on something ends it. -/
theorem exists_stopAfter? (hreached : w.first scope t ≤ (elapsed : ℕ∞)) :
    ∃ stop, w.stopAfter? scope t elapsed = some stop := by
  rw [first, min_le_iff, min_le_iff] at hreached
  unfold stopAfter?
  split
  · exact ⟨_, rfl⟩
  · rename_i hgiven
    split
    · exact ⟨_, rfl⟩
    · rename_i hlimit
      rw [if_pos ((hreached.resolve_left hgiven).resolve_left hlimit)]
      exact ⟨_, rfl⟩

/-- Of the bounds that are reached at the first of the times the earlier one counts. -/
theorem stopAfter?_of_eq (htime : (elapsed : ℕ∞) = w.first scope t) :
    w.stopAfter? scope t elapsed = some (w.stop scope t) := by
  rw [stopAfter?, htime, stop, first]
  by_cases hgiven : w.givenUp scope t ≤ min (w.limit : ℕ∞) w.own
  · rw [if_pos (le_min (le_refl _) hgiven), if_pos hgiven]
  · have hrest : min (w.limit : ℕ∞) w.own < w.givenUp scope t := not_le.mp hgiven
    rw [min_eq_right (le_of_lt hrest), if_neg hgiven, if_neg (not_le.mpr hrest)]
    by_cases hlimit : (w.limit : ℕ∞) ≤ w.own
    · rw [if_pos (le_min (le_refl _) hlimit), if_pos hlimit]
    · have hown : w.own < (w.limit : ℕ∞) := not_le.mp hlimit
      rw [min_eq_right (le_of_lt hown), if_neg hlimit, if_neg (not_le.mpr hown),
        if_pos (le_refl _)]

/-- Work ends by itself if one of the times has come, and none of the bounds is reached. -/
theorem stopAfter?_eq_itself (hreached : w.first scope t ≤ (elapsed : ℕ∞))
    (hearly : (elapsed : ℕ∞) < min (w.givenUp scope t) (w.limit : ℕ∞)) :
    w.stopAfter? scope t elapsed = some .itself := by
  obtain ⟨hgiven, hlimit⟩ := lt_min_iff.mp hearly
  rw [first, min_le_iff, min_le_iff] at hreached
  have hown : w.own ≤ (elapsed : ℕ∞) :=
    (hreached.resolve_left (not_le.mpr hgiven)).resolve_left (not_le.mpr hlimit)
  rw [stopAfter?, if_neg (not_le.mpr hgiven), if_neg (not_le.mpr hlimit), if_pos hown]

/-- Leaving takes no time. -/
theorem now_leave (w : Work) (scope : Scope) (t : Timeline) (stop : Stop) :
    (w.leave scope t stop).now = t.now := by
  unfold leave
  split
  · split <;> rfl
  · rfl

theorem runOver_cons (w : Work) (scope : Scope) (instant : Instant) (later : List Instant)
    (t : Timeline) : w.runOver scope (instant :: later) t =
      match w.stop? scope (t.visit instant).forest (t.visit instant).now with
      | none => w.runOver scope later (t.visit instant)
      | some stop => some (w.result stop, w.leave scope (t.visit instant) stop) := rfl

/-- **Work ends at the first visit by which one of the four times has come.** -/
theorem runOver_reached (hbounded : w.isBounded = true) {instants : List Instant}
    (hle : w.start ≤ t'.now) (hunlocked : ∀ u, t'.forest.isLocked u = false)
    (hsame : t'.untilCancelled w.start scope.token = t.untilCancelled w.start scope.token)
    (hsorted : (t'.now :: instants).Pairwise (· ≤ ·))
    (hreached : ∃ instant ∈ instants, w.first scope t ≤ (instant.since w.start : ℕ∞)) :
    ∃ next stop t'', w.first scope t ≤ (next.since w.start : ℕ∞) ∧
      (∀ instant ∈ instants, w.first scope t ≤ (instant.since w.start : ℕ∞) → next ≤ instant) ∧
      w.stopAfter? scope t (next.since w.start) = some stop ∧
      w.runOver scope instants t' = some (w.result stop, t'') ∧ t''.now = next := by
  induction instants generalizing t' with
  | nil =>
    obtain ⟨instant, hinstant, -⟩ := hreached
    cases hinstant
  | cons instant later ih =>
    obtain ⟨hhead, htail⟩ := List.pairwise_cons.mp hsorted
    have hinstant : t'.now ≤ instant := hhead instant List.mem_cons_self
    obtain ⟨hnow, hunlocked', hcancelled, hsame'⟩ :=
      Timeline.visit_spec scope.token hunlocked hle hinstant
    rw [runOver_cons]
    generalize t'.visit instant = visited at hnow hunlocked' hcancelled hsame' ⊢
    subst hnow
    rw [hsame] at hcancelled hsame'
    have hle' : w.start ≤ visited.now := Nat.le_trans hle hinstant
    rw [stop?_eq hbounded hle' hcancelled]
    by_cases hearly : (visited.now.since w.start : ℕ∞) < w.first scope t
    · -- nothing ends it yet, and a visit by which something does is still to come
      have hdown : visited.forest.isCancelled scope.token = false := by
        rw [← Bool.not_eq_true, hcancelled, not_le]
        exact lt_of_lt_of_le hearly (min_le_of_left_le (min_le_left _ _))
      have hlater : ∃ instant ∈ later, w.first scope t ≤ (instant.since w.start : ℕ∞) := by
        obtain ⟨instant, hmem, htime⟩ := hreached
        rcases List.mem_cons.mp hmem with rfl | hmem
        · exact absurd htime (not_le.mpr hearly)
        · exact ⟨instant, hmem, htime⟩
      obtain ⟨next, stop, t'', htime, hleast, hrun⟩ :=
        ih hle' hunlocked' (hsame' hdown) htail hlater
      rw [stopAfter?_of_lt hearly]
      refine ⟨next, stop, t'', htime, fun instant hmem htime' => ?_, hrun⟩
      rcases List.mem_cons.mp hmem with rfl | hmem
      · exact absurd htime' (not_le.mpr hearly)
      · exact hleast instant hmem htime'
    · -- this is the first visit by which one of the times has come
      obtain ⟨stop, hstop⟩ := exists_stopAfter? (not_lt.mp hearly)
      rw [hstop]
      refine ⟨visited.now, stop, _, not_lt.mp hearly, fun instant hmem _ => ?_, hstop, rfl,
        now_leave w scope visited stop⟩
      rcases List.mem_cons.mp hmem with rfl | hmem
      · exact Nat.le_refl _
      · exact (List.pairwise_cons.mp htail).1 instant hmem

/-- Work that begins now, over the visits of the clock. -/
theorem run_reached (hbounded : w.isBounded = true) (hstart : w.start = t.now)
    (hf : t.forest.WellFormed) {instant : Instant} (hinstant : instant ∈ t.visits (w.timers scope))
    (hreached : w.first scope t ≤ (instant.since w.start : ℕ∞)) :
    ∃ stop t', w.stopAfter? scope t (t'.now.since w.start) = some stop ∧
      w.run scope t = some (w.result stop, t') ∧
      w.first scope t ≤ (t'.now.since w.start : ℕ∞) ∧ t'.now ≤ instant := by
  have hsorted : (t.now :: t.visits (w.timers scope)).Pairwise (· ≤ ·) := by
    have hpairwise := Timeline.pairwise_visits t (w.timers scope)
    refine List.Pairwise.cons (fun instant hmem => ?_) hpairwise
    rcases List.mem_cons.mp hmem with rfl | htail
    · exact Nat.le_refl _
    · exact (List.pairwise_cons.mp hpairwise).1 instant htail
  obtain ⟨_, stop, t', htime, hleast, hstop, hrun, rfl⟩ := runOver_reached hbounded
    (hstart ▸ Nat.le_refl _) hf.unlocked rfl hsorted ⟨instant, hinstant, hreached⟩
  exact ⟨stop, t', hstop, hrun, htime, hleast instant hinstant hreached⟩

/-! ## The whole run

The clock stops at each time a timer is set for, so the first of the four is not passed over. -/

/-- The clock can tell the times of work that begins now: they are whole milliseconds, and it can show
the last one. -/
structure Measured (w : Work) (scope : Scope) (t : Timeline) : Prop where
  now : Instant.IsWhole t.now.nanos
  deadline : ∀ deadline, scope.deadline = some deadline → Instant.IsWhole deadline.nanos
  cancellation : ∀ a, t.upcoming = some a → Instant.IsWhole a.instant.nanos
  timeout : Instant.IsWhole w.timeout.nanos
  takes : ∀ n, w.takes = some n → Instant.IsWhole n
  /-- No timer is set for later. -/
  far : t.now.nanos + Instant.farNanos ≤ maxInstantNanos

/-- The first of the four times is one of them. -/
theorem first_cases (w : Work) (scope : Scope) (t : Timeline) :
    w.first scope t = t.untilCancelled w.start scope.token ∨
      w.first scope t = w.start.until scope.deadline ∨ w.first scope t = (w.limit : ℕ∞) ∨
        w.first scope t = w.own := by
  unfold first givenUp
  rcases min_choice (min (t.untilCancelled w.start scope.token) (w.start.until scope.deadline))
      (min (w.limit : ℕ∞) w.own) with h | h
  · rw [h]
    rcases min_choice (t.untilCancelled w.start scope.token) (w.start.until scope.deadline) with
      h' | h'
    · exact .inl h'
    · exact .inr (.inl h')
  · rw [h]
    rcases min_choice (w.limit : ℕ∞) w.own with h' | h'
    · exact .inr (.inr (.inl h'))
    · exact .inr (.inr (.inr h'))

/-- The clock stops at the first of the times. -/
theorem Measured.exists_visit (hclock : w.Measured scope t) (hstart : w.start = t.now) :
    ∃ next ∈ t.visits (w.timers scope), (next.since w.start : ℕ∞) = w.first scope t := by
  have hle : w.first scope t ≤ (w.limit : ℕ∞) := min_le_of_right_le (min_le_left _ _)
  obtain ⟨e, he⟩ := ENat.ne_top_iff_exists.mp (ne_top_of_le_ne_top (ENat.natCast_ne_top _) hle)
  have hmax : t.now.nanos + e ≤ maxInstantNanos := by
    have hlimit : e ≤ w.limit := by
      rw [← he] at hle
      exact Nat.cast_le.mp hle
    have hfar : w.limit ≤ Instant.farNanos := Nat.min_le_right _ _
    have := hclock.far
    omega
  rw [← he]
  rcases Nat.eq_zero_or_pos e with rfl | hpos
  · exact ⟨t.now, List.mem_cons_self, by rw [hstart, Instant.since, Nat.sub_self]⟩
  -- a time to come is that of a timer
  obtain ⟨hmem, hwhole⟩ : t.now.nanos + e ∈
      (t.upcoming.map fun a => a.instant.nanos).toList ++ w.timers scope ∧
        Instant.IsWhole (t.now.nanos + e) := by
    have hcases := w.first_cases scope t
    rw [← he, hstart] at hcases
    rcases hcases with hcancelled | hdeadline | hlimit | hown
    · -- a token that is cancelled already would be cancelled at once
      have hdown : t.forest.isCancelled scope.token = false := by
        rw [← Bool.not_eq_true]
        intro hup
        rw [Timeline.untilCancelled_of_isCancelled hup] at hcancelled
        exact absurd (Nat.cast_inj.mp hcancelled) (Nat.ne_of_gt hpos)
      rw [Timeline.untilCancelled_of_not hdown] at hcancelled
      obtain ⟨instant, hreaching, hnanos⟩ := Instant.exists_of_until_eq hcancelled hpos
      obtain ⟨a, hfilter, rfl⟩ := Option.map_eq_some_iff.mp hreaching
      have ha : t.upcoming = some a := (Option.filter_eq_some_iff.mp hfilter).1
      rw [← hnanos]
      exact ⟨List.mem_append_left _ (by simp [ha]), hclock.cancellation a ha⟩
    · obtain ⟨deadline, hsome, hnanos⟩ := Instant.exists_of_until_eq hdeadline hpos
      rw [← hnanos]
      exact ⟨List.mem_append_right _ (by simp [timers, hsome]), hclock.deadline deadline hsome⟩
    · have htimer : w.timeoutNanos = t.now.nanos + e := by
        rw [Nat.cast_inj.mp hlimit, timeoutNanos, hstart]
        rfl
      rw [← htimer]
      refine ⟨List.mem_append_right _ (by simp [timers]), ?_⟩
      rw [timeoutNanos, hstart]
      exact hclock.now.add (hclock.timeout.min Instant.isWhole_farNanos)
    · unfold own at hown
      split at hown
      · rename_i n htakes
        obtain rfl : e = n := Nat.cast_inj.mp hown
        refine ⟨List.mem_append_right _ ?_, hclock.now.add (hclock.takes e htakes)⟩
        simp [timers, ownNanos?, htakes, hstart]
      · exact absurd hown (ENat.natCast_ne_top e)
  obtain ⟨next, hnext, hsince⟩ := Timeline.exists_visit hmem hwhole hmax hpos
  exact ⟨next, List.mem_of_mem_tail hnext, by rw [hstart, hsince]⟩

/-- Bounded work ends, at the first of the times and by what comes then. -/
theorem run_spec (hbounded : w.isBounded = true) (hstart : w.start = t.now)
    (hf : t.forest.WellFormed) (hclock : w.Measured scope t) :
    ∃ t', w.run scope t = some (w.result (w.stop scope t), t') ∧
      (t'.now.since w.start : ℕ∞) = w.first scope t := by
  obtain ⟨next, hnext, htime⟩ := hclock.exists_visit hstart
  obtain ⟨stop, t', hstop, hrun, hreached, hle⟩ :=
    run_reached hbounded hstart hf hnext (le_of_eq htime.symm)
  -- the clock does not pass over the time, so it is there when the work ends
  have hnow : (t'.now.since w.start : ℕ∞) = w.first scope t := by
    refine le_antisymm ?_ hreached
    rw [← htime]
    exact Nat.cast_le.mpr (Instant.since_le_since hle w.start)
  obtain rfl := Option.some.inj (hstop.symm.trans (stopAfter?_of_eq hnow))
  exact ⟨t', hrun, hnow⟩

/-- How bounded work ends. Its timeout is waited for no longer than thirty years. -/
structure EndsAtFirstBound (w : Work) (scope : Scope) (t : Timeline) (outcome : Outcome)
    (t' : Timeline) : Prop where
  elapsed : (t'.now.since t.now : ℕ∞) = min (w.givenUp scope t) (min (w.limit : ℕ∞) w.own)
  cancelled : w.givenUp scope t ≤ min (w.limit : ℕ∞) w.own → outcome = .failed .cancelled
  timedOut : min (w.limit : ℕ∞) w.own < w.givenUp scope t → (w.limit : ℕ∞) ≤ w.own →
    outcome = .failed (.timeout w.timeout)
  itself : w.own < min (w.givenUp scope t) (w.limit : ℕ∞) → outcome = w.outcome
  /-- Anything else is there only if the work is faster than all bounds, which it cannot be if it may
  take no time. -/
  faster : outcome ≠ .failed .cancelled → outcome ≠ .failed (.timeout w.timeout) →
    outcome = w.outcome ∧ w.own < w.start.until scope.deadline ∧
      w.own < (w.timeout.nanos : ℕ∞) ∧ w.timeout ≠ Duration.zero

/-- Work that ends by itself is faster than all bounds. -/
theorem own_lt_of_stop_eq (h : w.stop scope t = .itself) :
    w.own < w.givenUp scope t ∧ w.own < (w.limit : ℕ∞) := by
  unfold stop at h
  split at h
  · cases h
  · rename_i hgiven
    split at h
    · cases h
    · rename_i hlimit
      have hown : w.own < (w.limit : ℕ∞) := not_le.mp hlimit
      rw [min_eq_right (le_of_lt hown)] at hgiven
      exact ⟨not_le.mp hgiven, hown⟩

/-- Work that gives neither of the two errors of the bounds ended by itself. -/
theorem eq_itself_of_result {stop : Stop} (hcancelled : w.result stop ≠ .failed .cancelled)
    (htimeout : w.result stop ≠ .failed (.timeout w.timeout)) : stop = .itself := by
  cases stop with
  | itself => rfl
  | scope => exact absurd rfl hcancelled
  | timeout => exact absurd rfl htimeout

/-- Bounded work ends, and as it should. -/
theorem exists_run (hbounded : w.isBounded = true) (hstart : w.start = t.now)
    (hf : t.forest.WellFormed) (hclock : w.Measured scope t) :
    ∃ outcome t', w.run scope t = some (outcome, t') ∧ w.EndsAtFirstBound scope t outcome t' := by
  obtain ⟨t', hrun, helapsed⟩ := run_spec hbounded hstart hf hclock
  refine ⟨_, t', hrun, hstart ▸ helapsed, ?_, ?_, ?_, ?_⟩
  · intro hgiven
    rw [stop, if_pos hgiven]
    rfl
  · intro hgiven hlimit
    rw [stop, if_neg (not_le.mpr hgiven), if_pos hlimit]
    rfl
  · intro hown
    obtain ⟨hgiven, hlimit⟩ := lt_min_iff.mp hown
    rw [stop, if_neg (not_le.mpr (lt_of_le_of_lt (min_le_right _ _) hgiven)),
      if_neg (not_le.mpr hlimit)]
    rfl
  · intro hcancelled htimedOut
    have hstop := eq_itself_of_result hcancelled htimedOut
    obtain ⟨hgiven, hlimit⟩ := own_lt_of_stop_eq hstop
    have htimeout : w.own < (w.timeout.nanos : ℕ∞) :=
      lt_of_lt_of_le hlimit (Nat.cast_le.mpr (Nat.min_le_left _ _))
    refine ⟨congrArg w.result hstop, (lt_min_iff.mp hgiven).2, htimeout, ?_⟩
    intro hzero
    rw [hzero] at htimeout
    exact absurd htimeout (not_lt.mpr bot_le)

end Work

/-- A fetch from a table takes its latency. -/
theorem FragmentTable.takes_work (table : FragmentTable) (i : Include) (timeout : Duration)
    (scope : Scope) (t : Timeline) :
    (table.work i timeout scope t).takes = some (min table.latency.nanos Instant.farNanos) := by
  show some (table.fetcher i scope.request).takes = _
  unfold FetchPlan.takes FragmentTable.fetcher
  by_cases hzero : table.latency = Duration.zero
  · rw [if_pos hzero, hzero]
    rfl
  · rw [if_neg hzero]

theorem FragmentTable.own_work (table : FragmentTable) (i : Include) (timeout : Duration)
    (scope : Scope) (t : Timeline) :
    (table.work i timeout scope t).own = (min table.latency.nanos Instant.farNanos : ℕ) := by
  rw [Work.own, FragmentTable.takes_work]

variable {scope : Scope} {t : Timeline}

/-- **A bounded fetch ends at its earliest bound**, whatever it does until it comes to its own end, and
also if it never does; and so does the fetch from a fragment table. -/
theorem fetch_ends_at_first_bound (hf : t.forest.WellFormed) :
    (∀ w : Work, w.isBounded = true → w.start = t.now → w.Measured scope t →
      ∃ outcome t', w.run scope t = some (outcome, t') ∧
        w.EndsAtFirstBound scope t outcome t') ∧
    ∀ (table : FragmentTable) (i : Include) (timeout : Duration),
      (table.work i timeout scope t).Measured scope t →
      ∃ outcome t', Fetch.run (table.fetcher i scope.request) timeout scope t =
          some (outcome, t') ∧
        (table.work i timeout scope t).EndsAtFirstBound scope t outcome t' := by
  refine ⟨?_, ?_⟩
  · intro w hbounded hstart hclock
    exact Work.exists_run hbounded hstart hf hclock
  · intro table i timeout hclock
    exact Work.exists_run rfl rfl hf hclock

/-- A request that is to be given up after twenty-five milliseconds. -/
def shortScope : Scope :=
  { request := { id := "" }, token := 0, deadline := some ⟨25 * nanosPerMilli, by decide⟩ }

/-- The request is to be cancelled after thirty milliseconds. -/
def shortTimeline : Timeline :=
  { forest := { nodes := [{}] }, upcoming := some ⟨⟨30 * nanosPerMilli, by decide⟩, 0⟩ }

/-- Work that may take twenty-five milliseconds, and never comes to its own end. -/
def hangingWork : Work where
  start := Instant.start
  timeout := Duration.ofMillis 25
  takes := none
  outcome := .bytes []

/-- A table with one fragment. -/
def oneFragment : FragmentTable := { fragments := ({} : AddressTable Bytes).insert "u" [0x78] }

/-- The tag that asks for it. -/
def oneTag : Include :=
  { Include.ofTag [] 0 1 with directives.sources := ⟨[{ index := 0, url := some (.literal "u") }], []⟩ }

/-- Deadline and timeout are reached at once, and the deadline counts. A fetch that may take no time
comes back without the fragment that is there. -/
theorem fetch_ends_at_first_bound_short :
    (∃ t', hangingWork.run shortScope shortTimeline = some (.failed .cancelled, t') ∧
      t'.now.nanos = 25 * nanosPerMilli) ∧
    oneFragment.lookup oneTag shortScope.request = some [0x78] ∧
    ∃ t', Fetch.run (oneFragment.fetcher oneTag shortScope.request) Duration.zero shortScope
        shortTimeline = some (.failed (.timeout Duration.zero), t') ∧ t'.now.nanos = 0 := by
  have hf : shortTimeline.forest.WellFormed := Forest.wellFormed_empty.create
  obtain ⟨hwork, htable⟩ := fetch_ends_at_first_bound (t := shortTimeline) hf
  have hgiven (w : Work) (hstart : w.start = Instant.start) :
      w.givenUp shortScope shortTimeline = ((25 * nanosPerMilli : ℕ) : ℕ∞) := by
    have hreaching : shortTimeline.reaching? 0 = some ⟨30 * nanosPerMilli, by decide⟩ := by
      decide +kernel
    unfold Work.givenUp
    rw [hstart, Timeline.untilCancelled_of_not (by decide),
      show shortTimeline.reaching? shortScope.token = _ from hreaching]
    show min ((30 * nanosPerMilli : ℕ) : ℕ∞) ((25 * nanosPerMilli : ℕ) : ℕ∞) = _
    exact min_eq_right (Nat.cast_le.mpr (by decide))
  refine ⟨?_, by decide +kernel, ?_⟩
  · have hclock : hangingWork.Measured shortScope shortTimeline :=
      ⟨by decide, by decide, by decide, by decide, by decide, by decide⟩
    obtain ⟨outcome, t', hrun, hend⟩ := hwork hangingWork rfl rfl hclock
    have hle : hangingWork.givenUp shortScope shortTimeline ≤
        min (hangingWork.limit : ℕ∞) hangingWork.own := by
      rw [hgiven hangingWork rfl]
      exact le_min (Nat.cast_le.mpr (by decide)) le_top
    have helapsed := hend.elapsed
    rw [min_eq_left hle, hgiven hangingWork rfl] at helapsed
    rw [hend.cancelled hle] at hrun
    exact ⟨t', hrun, Nat.cast_inj.mp helapsed⟩
  · have hclock : (oneFragment.work oneTag Duration.zero shortScope shortTimeline).Measured
        shortScope shortTimeline :=
      ⟨by decide, by decide, by decide, by decide, by decide, by decide⟩
    obtain ⟨outcome, t', hrun, hend⟩ := htable oneFragment oneTag Duration.zero hclock
    generalize hw : oneFragment.work oneTag Duration.zero shortScope shortTimeline = w at hend
    have hgivenUp := hgiven w (by rw [← hw]; rfl)
    have hlimit : (w.limit : ℕ∞) = 0 := by
      rw [← hw]
      rfl
    have htimedOut : outcome = .failed (.timeout w.timeout) := by
      refine hend.timedOut ?_ (hlimit ▸ zero_le)
      rw [hlimit, min_eq_left zero_le, hgivenUp]
      exact Nat.cast_lt.mpr (by decide)
    have helapsed := hend.elapsed
    rw [hlimit, min_eq_left zero_le, min_eq_right zero_le] at helapsed
    rw [htimedOut, ← hw] at hrun
    exact ⟨t', hrun, Nat.cast_inj.mp helapsed⟩

/-- A timeout of more than thirty years. -/
def longTimeout : Duration :=
  Duration.ofMillis 946080000001

/-- A fetch from it takes thirty years. -/
def slowFragment : FragmentTable :=
  { oneFragment with latency := Duration.ofMillis 946080000000 }

/-- A request that nobody gives up, and its clock. -/
def quietScope : Scope := { request := { id := "" }, token := 0 }

@[inherit_doc quietScope]
def quietTimeline : Timeline := { forest := { nodes := [{}] } }

/-- **A timeout of more than thirty years is not waited for.** The fragment would be there in time, and
nobody gives the fetch up, but it ends with the timeout. -/
theorem long_timeout_cut_short :
    (slowFragment.work oneTag longTimeout quietScope quietTimeline).outcome = .bytes [0x78] ∧
    (slowFragment.work oneTag longTimeout quietScope quietTimeline).givenUp quietScope
      quietTimeline = ⊤ ∧
    (slowFragment.work oneTag longTimeout quietScope quietTimeline).own <
      (longTimeout.nanos : ℕ∞) ∧
    ∃ t', Fetch.run (slowFragment.fetcher oneTag quietScope.request) longTimeout quietScope
      quietTimeline = some (.failed (.timeout longTimeout), t') := by
  have hf : quietTimeline.forest.WellFormed := Forest.wellFormed_empty.create
  have hclock : (slowFragment.work oneTag longTimeout quietScope quietTimeline).Measured quietScope
      quietTimeline :=
    ⟨by decide, by decide, by decide, by decide, by decide, by decide⟩
  have hgiven : (slowFragment.work oneTag longTimeout quietScope quietTimeline).givenUp quietScope
      quietTimeline = ⊤ := by
    unfold Work.givenUp
    rw [Timeline.untilCancelled_of_not (by decide)]
    exact min_self ⊤
  have hown := slowFragment.own_work oneTag longTimeout quietScope quietTimeline
  refine ⟨by decide +kernel, hgiven, ?_, ?_⟩
  · rw [hown]
    exact Nat.cast_lt.mpr (by decide)
  · obtain ⟨outcome, t', hrun, hend⟩ := Work.exists_run rfl rfl hf hclock
    have htimedOut := hend.timedOut
    rw [hgiven, hown] at htimedOut
    have hlt := htimedOut (lt_of_le_of_lt (min_le_left _ _) (ENat.natCast_lt_top _))
      (Nat.cast_le.mpr (by decide))
    rw [hlt] at hrun
    exact ⟨t', hrun⟩

end EdgeInclude
