import Mathlib.Data.ENat.Basic
import Mathlib.Data.List.Basic
import EdgeInclude.Request.Scope
import EdgeInclude.Timeline

/-!
# Visits to instants

The clock goes from one instant to be visited to the next. The instants are in order, and none at
which a timer goes off is left out.

* **`pairwise_visits`**: the instants are in order.
* **`mem_visits_of_tick`**: an instant at which a timer goes off is one of them. **`mem_visits_of_mem`**.
* **`Instant.until`**: how long until an instant. **`Scope.isOverdue_iff`**, **`exists_visit`**: a deadline,
  and the visits, told by the time that has passed.
-/

namespace EdgeInclude

namespace Instant

/-- A whole number of milliseconds. -/
def IsWhole (n : Nat) : Prop := n % nanosPerMilli = 0

instance : DecidablePred IsWhole := fun n => inferInstanceAs (Decidable (n % nanosPerMilli = 0))

theorem IsWhole.add {m n : Nat} (hm : IsWhole m) (hn : IsWhole n) : IsWhole (m + n) := by
  unfold IsWhole nanosPerMilli at *
  omega

theorem isWhole_farNanos : IsWhole farNanos := by decide

theorem IsWhole.min {m n : Nat} (hm : IsWhole m) (hn : IsWhole n) : IsWhole (min m n) := by
  rcases Nat.le_total m n with hle | hle
  · rwa [Nat.min_eq_left hle]
  · rwa [Nat.min_eq_right hle]

/-- A timer for a whole number of milliseconds goes off then. -/
theorem tickNanos_of_isWhole {n : Nat} (h : IsWhole n) : tickNanos n = n := by
  unfold IsWhole tickNanos at *
  simp only [nanosPerMilli] at *
  omega

theorem ofNanos?_nanos (t : Instant) : ofNanos? t.nanos = some t := by
  simp [ofNanos?, t.le_max]

/-- Two instants with the same nanoseconds are the same. -/
theorem eq_of_nanos_eq {s t : Instant} (h : s.nanos = t.nanos) : s = t := by
  cases s
  cases t
  cases h
  rfl

/-- The time since an instant leads from it to now. -/
theorem add_since {start now : Instant} (h : start ≤ now) :
    start.nanos + now.since start = now.nanos :=
  Nat.add_sub_cancel' h

theorem since_le_since {s t : Instant} (h : s ≤ t) (start : Instant) :
    s.since start ≤ t.since start :=
  Nat.sub_le_sub_right h _

end Instant

/-- How long from now on until an instant; none never comes. -/
def Instant.until (now : Instant) : Option Instant → ℕ∞
  | some instant => (instant.since now : ℕ)
  | none => ⊤

/-- A time that comes is that of an instant. -/
theorem Instant.exists_of_until_eq {now : Instant} {instant : Option Instant} {e : Nat}
    (h : (e : ℕ∞) = now.until instant) (hpos : 0 < e) :
    ∃ i, instant = some i ∧ i.nanos = now.nanos + e := by
  cases instant with
  | none => exact absurd h (ENat.natCast_ne_top e)
  | some i =>
    have heq : e = i.since now := Nat.cast_inj.mp h
    refine ⟨i, rfl, ?_⟩
    rw [Instant.since] at heq
    omega

/-- A deadline is reached when the time until it has passed. -/
theorem Scope.isOverdue_iff {scope : Scope} {start now : Instant} (hle : start ≤ now) :
    scope.isOverdue now = true ↔ start.until scope.deadline ≤ (now.since start : ℕ∞) := by
  unfold isOverdue
  cases scope.deadline with
  | none => simp [Instant.until]
  | some deadline =>
    show decide (deadline ≤ now) = true ↔ (deadline.since start : ℕ∞) ≤ (now.since start : ℕ∞)
    rw [decide_eq_true_eq, Nat.cast_le, Instant.since, Instant.since]
    exact (Nat.sub_le_sub_iff_right hle).symm

/-- What is left of a list without its repetitions is in the same order. -/
theorem eraseDups_sublist (l : List Nat) : l.eraseDups.Sublist l := by
  induction hn : l.length using Nat.strongRecOn generalizing l with
  | ind n ih =>
    cases l with
    | nil => exact .refl _
    | cons a l =>
      rw [List.eraseDups_cons]
      have hlt : (l.filter fun b => !b == a).length < n := by
        have := List.length_filter_le (fun b => !b == a) l
        rw [List.length_cons] at hn
        omega
      exact ((ih _ hlt _ rfl).trans List.filter_sublist).cons_cons a

namespace Timeline

variable {t : Timeline} {timers : List Nat} {instant : Instant}

/-- A cancellation that is due comes about. -/
theorem settle_of_due {a : Appointment} (h : t.upcoming = some a) (hdue : a.instant ≤ t.now) :
    t.settle = { t with forest := t.forest.cancel a.token, upcoming := none } := by
  have hsome : t.due? = some a := by
    rw [due?, h, Option.filter_some, if_pos (decide_eq_true hdue)]
  rw [settle, hsome]

/-- Nothing comes about before it is due. -/
theorem settle_of_not_due (h : ∀ a, t.upcoming = some a → t.now < a.instant) : t.settle = t := by
  have hnone : t.due? = none := by
    rw [due?, Option.filter_eq_none_iff]
    intro a ha
    rw [decide_eq_true_eq]
    exact Nat.not_le.mpr (h a ha)
  rw [settle, hnone]

/-- The instants after the first one are later than what the clock shows. -/
theorem lt_of_mem_tail_visits (h : instant ∈ (t.visits timers).tail) :
    t.now.nanos < instant.nanos := by
  obtain ⟨n, hn, hinstant⟩ := List.mem_filterMap.mp h
  rw [List.mem_eraseDups, List.mem_mergeSort, List.mem_filter] at hn
  unfold Instant.ofNanos? at hinstant
  split at hinstant
  · cases hinstant
    simpa using hn.2
  · cases hinstant

/-- **The instants are in order.** -/
theorem pairwise_visits (t : Timeline) (timers : List Nat) :
    (t.visits timers).Pairwise (· ≤ ·) := by
  refine List.Pairwise.cons (fun instant (h : instant ∈ (t.visits timers).tail) => ?_) ?_
  · exact Nat.le_of_lt (lt_of_mem_tail_visits h)
  · rw [List.pairwise_filterMap]
    refine List.Pairwise.sublist (eraseDups_sublist _) ?_
    refine (List.pairwise_mergeSort (by simp; omega) (by simp; omega) _).imp ?_
    intro m n hmn a ha c hc
    unfold Instant.ofNanos? at ha hc
    split at ha <;> cases ha
    split at hc <;> cases hc
    show m ≤ n
    simpa using hmn

/-- **No timer is left out** that goes off later, at an instant which the clock can show. -/
theorem mem_visits_of_tick {n : Nat}
    (h : n ∈ (t.upcoming.map fun a => a.instant.nanos).toList ++ timers)
    (hmax : Instant.tickNanos n ≤ maxInstantNanos) (hlt : t.now.nanos < Instant.tickNanos n) :
    ∃ instant ∈ (t.visits timers).tail, instant.nanos = Instant.tickNanos n := by
  refine ⟨⟨Instant.tickNanos n, hmax⟩, List.mem_filterMap.mpr ⟨Instant.tickNanos n, ?_, ?_⟩, rfl⟩
  · rw [List.mem_eraseDups, List.mem_mergeSort, List.mem_filter]
    exact ⟨List.mem_map_of_mem h, by simpa using hlt⟩
  · exact Instant.ofNanos?_nanos ⟨Instant.tickNanos n, hmax⟩

/-- A timer for a whole millisecond goes off at an instant that is visited. -/
theorem mem_visits_of_mem {n : Nat}
    (h : n ∈ (t.upcoming.map fun a => a.instant.nanos).toList ++ timers)
    (hwhole : Instant.IsWhole n) (hmax : n ≤ maxInstantNanos) (hlt : t.now.nanos < n) :
    ∃ instant ∈ (t.visits timers).tail, instant.nanos = n := by
  have htick := Instant.tickNanos_of_isWhole hwhole
  obtain ⟨instant, hinstant, hnanos⟩ := mem_visits_of_tick h (htick.symm ▸ hmax) (htick.symm ▸ hlt)
  exact ⟨instant, hinstant, hnanos.trans htick⟩

/-- The clock visits an instant for which a timer is set. -/
theorem exists_visit {timers : List Nat} {e : Nat}
    (hmem : t.now.nanos + e ∈ (t.upcoming.map fun a => a.instant.nanos).toList ++ timers)
    (hwhole : Instant.IsWhole (t.now.nanos + e)) (hmax : t.now.nanos + e ≤ maxInstantNanos)
    (hpos : 0 < e) : ∃ next ∈ (t.visits timers).tail, next.since t.now = e := by
  obtain ⟨next, hnext, hnanos⟩ := Timeline.mem_visits_of_mem hmem hwhole hmax (by omega)
  refine ⟨next, hnext, ?_⟩
  rw [Instant.since, hnanos, Nat.add_sub_cancel_left]

end Timeline

end EdgeInclude
