import EdgeInclude.Duration.Basic

/-!
# Instants

A reading of the clock, and when a timer goes off. Seconds since the clock was started fit a signed
64-bit word, so a far instant can be out of range although every duration is in range:
`Instant.add?` says so. Timers go by whole milliseconds, and one that is started for a duration
waits no longer than thirty years.
-/

namespace EdgeInclude

/-- The last instant, in nanoseconds since the clock was started. -/
def maxInstantNanos : Nat := (UInt64.size / 2 - 1) * nanosPerSecond + 999999999

/-- A reading of the clock, in nanoseconds since it was started. -/
structure Instant where
  nanos : Nat
  le_max : nanos ≤ maxInstantNanos
deriving DecidableEq

namespace Instant

/-- The reading when the clock is started. -/
def start : Instant := ⟨0, Nat.zero_le _⟩

instance : Inhabited Instant := ⟨start⟩

instance : LE Instant := ⟨fun s t => s.nanos ≤ t.nanos⟩

instance : LT Instant := ⟨fun s t => s.nanos < t.nanos⟩

instance (s t : Instant) : Decidable (s ≤ t) := inferInstanceAs (Decidable (s.nanos ≤ t.nanos))

instance (s t : Instant) : Decidable (s < t) := inferInstanceAs (Decidable (s.nanos < t.nanos))

theorem le_iff_nanos_le {s t : Instant} : s ≤ t ↔ s.nanos ≤ t.nanos := Iff.rfl

/-- The instant of the given nanoseconds, if there is one. -/
def ofNanos? (n : Nat) : Option Instant :=
  if h : n ≤ maxInstantNanos then some ⟨n, h⟩ else none

/-- The instant a duration after another one, if it is in range. -/
def add? (t : Instant) (d : Duration) : Option Instant :=
  ofNanos? (t.nanos + d.nanos)

theorem add?_eq_none_iff {t : Instant} {d : Duration} :
    t.add? d = none ↔ maxInstantNanos < t.nanos + d.nanos := by
  unfold add? ofNanos?
  split <;> simp <;> omega

/-- The earlier of two instants. -/
protected def min (s t : Instant) : Instant :=
  if s ≤ t then s else t

/-- The nanoseconds from one instant to a later one. -/
def since (t s : Instant) : Nat :=
  t.nanos - s.nanos

/-- How long a timer waits at most: thirty years of 365 days. -/
def farNanos : Nat := 30 * 365 * 86400 * nanosPerSecond

/-- When a timer goes off that is started at `t` for a duration. -/
def timerNanos (t : Instant) (d : Duration) : Nat :=
  t.nanos + min d.nanos farNanos

/-- A timer that has not far to go waits for its duration. -/
theorem timerNanos_of_le {t : Instant} {d : Duration} (h : d.nanos ≤ farNanos) :
    t.timerNanos d = t.nanos + d.nanos := by
  rw [timerNanos, Nat.min_eq_left h]

theorem timerNanos_le (t : Instant) (d : Duration) : t.timerNanos d ≤ t.nanos + d.nanos :=
  Nat.add_le_add_left (Nat.min_le_left ..) t.nanos

/-- The first whole millisecond at or after the given nanoseconds: a timer set for them goes off
there. -/
def tickNanos (n : Nat) : Nat :=
  (n + (nanosPerMilli - 1)) / nanosPerMilli * nanosPerMilli

theorem le_tickNanos (n : Nat) : n ≤ tickNanos n := by
  simp only [tickNanos, nanosPerMilli]
  omega

end Instant

end EdgeInclude
