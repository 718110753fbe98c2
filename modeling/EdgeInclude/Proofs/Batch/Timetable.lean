import Mathlib.Data.ENat.Lattice
import EdgeInclude.Batch.Resolver
import EdgeInclude.Proofs.Visits

/-!
# Timetables

When a batch ends on a clock is decided by a few times, all counted in nanoseconds from its
beginning: when each fetch would come to its own end, how long it may take, the deadline, and when
the request is cancelled. A time that never comes is `⊤`.

* **`Timetable.InTime`**: a fetch delivers its fragment before anything interferes.
* **`Timetable.failing`**: when something goes wrong first.
* **`Timetable.complete`**: when the last fetch comes to its own end.
* **`forall_inTime_iff`**: all fetches are in time exactly if they have come to their ends before
  anything goes wrong.
-/

namespace EdgeInclude

/-- The fetch delivers a fragment if it comes to its own end: it ends with bytes, and it does not
cancel its own scope. -/
def FetchPlan.delivers (p : FetchPlan) : Bool :=
  match p.outcome with
  | .bytes _ => !p.cancelsScope
  | _ => false

theorem FetchPlan.delivers_iff {p : FetchPlan} :
    p.delivers = true ↔ (∃ data, p.outcome = .bytes data) ∧ p.cancelsScope = false := by
  unfold delivers
  cases p.outcome <;> simp

/-- How long a limit is; none is endless. -/
def Duration.limit : Option Duration → ℕ∞
  | some d => (d.nanos : ℕ)
  | none => ⊤

namespace Batch

/-- The times that decide about a batch, from its beginning on. -/
structure Timetable where
  /-- How the fetch of a tag goes when nothing interferes. -/
  plan : Include → FetchPlan
  /-- How long the fetch of a tag may take. -/
  limit : Include → Nat
  deadline : ℕ∞
  /-- When the request is cancelled. -/
  cancellation : ℕ∞

namespace Timetable

variable {tt : Timetable} {tags : List Include} {tag : Include} {e : Nat}

/-- When the fetch of a tag comes to its own end. -/
def own (tt : Timetable) (tag : Include) : Nat :=
  match (tt.plan tag).delay with
  | some d => min d.nanos Instant.farNanos
  | none => 0

/-- The fetch of a tag delivers its fragment before its time is up, the deadline is reached or the
request is cancelled. -/
def InTime (tt : Timetable) (tag : Include) : Prop :=
  (tt.plan tag).delivers = true ∧
    (tt.own tag : ℕ∞) < min (tt.limit tag : ℕ∞) (min tt.deadline tt.cancellation)

/-- When the fetch of a tag fails by itself: when its time is up, or else at its own end unless it
delivers then. -/
def failure (tt : Timetable) (tag : Include) : ℕ∞ :=
  if tt.limit tag ≤ tt.own tag then (tt.limit tag : ℕ∞)
  else if (tt.plan tag).delivers then ⊤
  else (tt.own tag : ℕ∞)

/-- When something goes wrong first: a fetch fails, the deadline is reached, or the request is
cancelled. -/
noncomputable def failing (tt : Timetable) (tags : List Include) : ℕ∞ :=
  min ((tags.map tt.failure).foldr min ⊤) (min tt.deadline tt.cancellation)

/-- When the last fetch comes to its own end. -/
def complete (tt : Timetable) (tags : List Include) : Nat :=
  (tags.map tt.own).foldr max 0

/-! ## Minima and maxima over the tags

A page has finitely many tags, so the first failure and the last end are those of some tag. -/

/-- A time is up to the least if it is up to each. -/
theorem le_foldr_min_iff {times : List ℕ∞} {x : ℕ∞} :
    x ≤ times.foldr min ⊤ ↔ ∀ time ∈ times, x ≤ time := by
  induction times with
  | nil => simp
  | cons time times ih => simp [ih]

/-- A time is before the least if it is before each. -/
theorem lt_foldr_min_iff {times : List ℕ∞} :
    (e : ℕ∞) < times.foldr min ⊤ ↔ ∀ time ∈ times, (e : ℕ∞) < time := by
  induction times with
  | nil => simp
  | cons time times ih => simp [ih]

/-- Nothing goes wrong before a time that is up to each of the times. -/
theorem le_failing_iff :
    (e : ℕ∞) ≤ tt.failing tags ↔
      (∀ tag ∈ tags, (e : ℕ∞) ≤ tt.failure tag) ∧ (e : ℕ∞) ≤ tt.deadline ∧
        (e : ℕ∞) ≤ tt.cancellation := by
  rw [failing, le_min_iff, le_min_iff, le_foldr_min_iff, List.forall_mem_map]

/-- Nothing goes wrong until a time that is before each of them. -/
theorem lt_failing_iff :
    (e : ℕ∞) < tt.failing tags ↔
      (∀ tag ∈ tags, (e : ℕ∞) < tt.failure tag) ∧ (e : ℕ∞) < tt.deadline ∧
        (e : ℕ∞) < tt.cancellation := by
  rw [failing, lt_min_iff, lt_min_iff, lt_foldr_min_iff, List.forall_mem_map]

/-- Each fetch ends before the last one, or is the last one. -/
theorem own_le_complete (h : tag ∈ tags) : tt.own tag ≤ tt.complete tags := by
  rw [complete]
  induction tags with
  | nil => cases h
  | cons first tags ih =>
    simp only [List.map_cons, List.foldr_cons]
    rcases List.mem_cons.mp h with rfl | h
    · exact Nat.le_max_left ..
    · exact Nat.le_trans (ih h) (Nat.le_max_right ..)

/-- The last end is no later than a time that all ends are no later than. -/
theorem complete_le (h : ∀ tag ∈ tags, tt.own tag ≤ e) : tt.complete tags ≤ e := by
  rw [complete]
  induction tags with
  | nil => exact Nat.zero_le _
  | cons first tags ih =>
    simp only [List.map_cons, List.foldr_cons]
    exact Nat.max_le.mpr ⟨h first List.mem_cons_self,
      ih fun tag hmem => h tag (List.mem_cons_of_mem _ hmem)⟩

/-- The last fetch to come to its own end is one of them. -/
theorem exists_own_eq_complete (hne : tags ≠ []) : ∃ tag ∈ tags, tt.own tag = tt.complete tags := by
  by_contra hnot
  have hlt : ∀ tag ∈ tags, tt.own tag < tt.complete tags := fun tag hmem =>
    Nat.lt_of_le_of_ne (own_le_complete hmem) fun heq => hnot ⟨tag, hmem, heq⟩
  obtain ⟨first, hfirst⟩ := List.exists_mem_of_ne_nil tags hne
  -- all would come to their ends earlier than the last of them
  have hpos := hlt first hfirst
  have hle : tt.complete tags ≤ tt.complete tags - 1 :=
    complete_le fun tag hmem => Nat.le_sub_one_of_lt (hlt tag hmem)
  omega

/-! ## What goes wrong with one fetch

A fetch fails when its time is up or at its own end, whichever comes first; a fetch in time has
neither before it. -/

/-- A fetch that has neither ended nor taken too long has not failed. -/
theorem le_failure (hown : e ≤ tt.own tag) (hlimit : e ≤ tt.limit tag) :
    (e : ℕ∞) ≤ tt.failure tag := by
  rw [failure]
  split
  · exact_mod_cast hlimit
  · split
    · exact le_top
    · exact_mod_cast hown

/-- A fetch that may take no longer fails, unless it has come to its own end before. -/
theorem lt_limit_of_lt_failure (hown : e ≤ tt.own tag) (h : (e : ℕ∞) < tt.failure tag) :
    e < tt.limit tag := by
  rw [failure] at h
  split at h
  · exact_mod_cast h
  · omega

/-- A fetch that comes to its own end in time delivers, if it does not fail. -/
theorem delivers_of_lt_failure (hown : tt.own tag ≤ e) (hlimit : e < tt.limit tag)
    (h : (e : ℕ∞) < tt.failure tag) : (tt.plan tag).delivers = true := by
  rw [failure, if_neg (by omega)] at h
  split at h
  · assumption
  · exact absurd (by exact_mod_cast h) (Nat.not_lt.mpr hown)

theorem inTime_iff :
    tt.InTime tag ↔ (tt.plan tag).delivers = true ∧ tt.own tag < tt.limit tag ∧
      (tt.own tag : ℕ∞) < tt.deadline ∧ (tt.own tag : ℕ∞) < tt.cancellation := by
  rw [InTime, lt_min_iff, lt_min_iff, Nat.cast_lt]

/-- A fetch that is in time does not fail by itself. -/
theorem InTime.failure_eq_top (h : tt.InTime tag) : tt.failure tag = ⊤ := by
  obtain ⟨hdelivers, hlimit, -, -⟩ := inTime_iff.mp h
  rw [failure, if_neg (by omega), if_pos hdelivers]

/-! ## All fetches together

If all are in time, nothing goes wrong until the last of them has ended. -/

/-- Who has come to an end before anything goes wrong is in time. -/
theorem inTime_of_lt_failing (hown : tt.own tag ≤ e) (hmem : tag ∈ tags)
    (h : (e : ℕ∞) < tt.failing tags) : tt.InTime tag := by
  obtain ⟨hfailure, hdeadline, hcancellation⟩ := lt_failing_iff.mp h
  have hfailure := hfailure tag hmem
  have hle : (tt.own tag : ℕ∞) ≤ e := by exact_mod_cast hown
  have hlimit : tt.own tag < tt.limit tag :=
    lt_limit_of_lt_failure (Nat.le_refl _) (lt_of_le_of_lt hle hfailure)
  exact inTime_iff.mpr ⟨delivers_of_lt_failure (Nat.le_refl _) hlimit (lt_of_le_of_lt hle hfailure),
    hlimit, lt_of_le_of_lt hle hdeadline, lt_of_le_of_lt hle hcancellation⟩

/-- When all fetches are in time, all have come to their ends before anything goes wrong. -/
theorem complete_lt_failing (hne : tags ≠ []) (h : ∀ tag ∈ tags, tt.InTime tag) :
    (tt.complete tags : ℕ∞) < tt.failing tags := by
  obtain ⟨last, hlast, heq⟩ : ∃ tag ∈ tags, tt.own tag = tt.complete tags :=
    exists_own_eq_complete hne
  obtain ⟨-, -, hdeadline, hcancellation⟩ := inTime_iff.mp (h last hlast)
  rw [← heq, lt_failing_iff]
  refine ⟨fun tag hmem => ?_, hdeadline, hcancellation⟩
  rw [(h tag hmem).failure_eq_top]
  exact ENat.natCast_lt_top _

/-- **All fetches are in time** exactly if the last of them comes to its end before anything goes
wrong. -/
theorem forall_inTime_iff (hne : tags ≠ []) :
    (∀ tag ∈ tags, tt.InTime tag) ↔ (tt.complete tags : ℕ∞) < tt.failing tags := by
  refine ⟨complete_lt_failing hne, fun hlt tag hmem => ?_⟩
  exact inTime_of_lt_failing (own_le_complete hmem) hmem hlt

end Timetable

end Batch

namespace Resolver

open Batch

/-- The timetable of a call: no timer goes further than thirty years. -/
noncomputable def timetable (r : Resolver) (fetcher : Fetcher) (scope : Scope) (t : Timeline) :
    Timetable where
  plan tag := fetcher tag scope.request
  limit tag := min (r.timeouts.resolve tag.directives.timeout).nanos Instant.farNanos
  deadline := min (t.now.until scope.deadline) (Duration.limit r.batchDeadline)
  cancellation :=
    if t.forest.isCancelled scope.token then 0
    else t.now.until (t.upcoming.map Appointment.instant)

end Resolver

end EdgeInclude
