import EdgeInclude.Cancellation.Forest
import EdgeInclude.Instant

/-!
# Timelines

The clock, the tokens that live by it, and a cancellation that is to come from outside when a timer
goes off. Time passes in visits: at each instant that is visited the clock shows that instant, and
the cancellation comes about once it is due.
-/

namespace EdgeInclude

open Cancellation

/-- A cancellation that is to come. -/
structure Appointment where
  instant : Instant
  token : Token
deriving DecidableEq

/-- A clock with the tokens that live by it. -/
structure Timeline where
  forest : Forest := {}
  now : Instant := Instant.start
  upcoming : Option Appointment := none

namespace Timeline

/-- The cancellation that is due, if there is one. -/
def due? (t : Timeline) : Option Appointment :=
  t.upcoming.filter fun a => a.instant ≤ t.now

/-- Lets the cancellation come about if it is due. -/
def settle (t : Timeline) : Timeline :=
  match t.due? with
  | some a => { t with forest := t.forest.cancel a.token, upcoming := none }
  | none => t

/-- What comes about takes no time. -/
@[simp] theorem now_settle (t : Timeline) : t.settle.now = t.now := by
  unfold settle
  split <;> rfl

/-- Starts a timer that cancels a token. Nothing is to come if the clock cannot show the instant at
which it goes off. -/
def cancelAfter (t : Timeline) (d : Duration) (token : Token) : Timeline :=
  settle { t with upcoming := (Instant.ofNanos? (t.now.timerNanos d)).map (⟨·, token⟩) }

@[simp] theorem now_cancelAfter (t : Timeline) (d : Duration) (token : Token) :
    (t.cancelAfter d token).now = t.now :=
  now_settle _

/-- Lets the clock show an instant, unless it has passed, and what is due come about. -/
def visit (t : Timeline) (instant : Instant) : Timeline :=
  settle (if t.now ≤ instant then { t with now := instant } else t)

/-- The instants to visit, in order, so that nothing which the timers of the given nanoseconds set
off, nor the cancellation to come, is late. The instant that the clock shows is the first. -/
def visits (t : Timeline) (timers : List Nat) : List Instant :=
  let timers := (t.upcoming.map fun a => a.instant.nanos).toList ++ timers
  let later := (timers.map Instant.tickNanos).filter fun n => t.now.nanos < n
  t.now :: (later.mergeSort fun m n => decide (m ≤ n)).eraseDups.filterMap Instant.ofNanos?

end Timeline

end EdgeInclude
