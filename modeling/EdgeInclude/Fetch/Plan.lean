import EdgeInclude.Fetch.Error
import EdgeInclude.Include.Basic
import EdgeInclude.Request.Scope
import EdgeInclude.Timeline

/-!
# Fetches

A fetcher says of a tag and a request how the fetch goes when nothing interferes: that is its plan.
Most fetches are bounded: they also end when their scope is cancelled, at the deadline of the scope,
or when they have taken as long as they may. `Fetch.stop?` says which of these ends a fetch.

Of a fetch that cancels tokens while it is under way there is no plan. In the runs of a batch that is a
step of its own, which may come at any time.
-/

namespace EdgeInclude

open Cancellation

/-- How a fetch ends. -/
inductive Outcome where
  /-- With the bytes of the fragment. -/
  | bytes (data : Bytes)
  /-- With an error. -/
  | failed (error : FetchError)
  /-- By breaking down, with a message if it left one. -/
  | crashed (message : Option String)
deriving DecidableEq

/-- How a fetch goes when nothing interferes. -/
structure FetchPlan where
  /-- Its scope and its timeout can end the fetch. -/
  isBounded : Bool := true
  /-- How long it takes; it ends as soon as it begins if this is missing. -/
  delay : Option Duration := none
  /-- At its end it cancels its own scope. -/
  cancelsScope : Bool := false
  outcome : Outcome
deriving DecidableEq

/-- What fetches: for each tag and request, how that fetch goes. -/
abbrev Fetcher := Include → Request → FetchPlan

/-- A fetch under way. -/
structure Fetch where
  plan : FetchPlan
  /-- When it began. -/
  start : Instant
  /-- How long it may take. -/
  timeout : Duration

/-- What ends a fetch. -/
inductive Stop where
  /-- Its scope is cancelled, or the deadline of the scope is reached. -/
  | scope
  /-- It has taken as long as it may. -/
  | timeout
  /-- It has come to its own end. -/
  | itself
deriving DecidableEq, Repr

namespace Fetch

/-- When the timer for its timeout goes off. -/
def timeoutNanos (f : Fetch) : Nat :=
  f.start.timerNanos f.timeout

/-- When it comes to its own end. -/
def ownNanos (f : Fetch) : Nat :=
  match f.plan.delay with
  | some d => f.start.timerNanos d
  | none => f.start.nanos

/-- The fetch ends at an instant even if nobody cancels its scope: one of its timers has gone off. -/
def isDue (f : Fetch) (scope : Scope) (now : Instant) : Bool :=
  decide (f.ownNanos ≤ now.nanos) ||
    f.plan.isBounded && (scope.isOverdue now || decide (f.timeoutNanos ≤ now.nanos))

/-- What ends the fetch at an instant, if something does. Of several things that hold, the scope
comes first, then the timeout, and the own end last. -/
def stop? (f : Fetch) (scope : Scope) (forest : Forest) (now : Instant) : Option Stop :=
  if f.plan.isBounded && scope.isDone forest now then some .scope
  else if f.plan.isBounded && decide (f.timeoutNanos ≤ now.nanos) then some .timeout
  else if f.ownNanos ≤ now.nanos then some .itself
  else none

/-- A fetch ends when it is due, or when it is bounded and its scope is cancelled. -/
theorem isSome_stop? (f : Fetch) (scope : Scope) (forest : Forest) (now : Instant) :
    (f.stop? scope forest now).isSome =
      (f.isDue scope now || f.plan.isBounded && forest.isCancelled scope.token) := by
  by_cases hb : f.plan.isBounded = true
  · by_cases hc : forest.isCancelled scope.token = true
    · simp [stop?, isDue, Scope.isDone, hb, hc]
    · by_cases hd : scope.isOverdue now = true
      · simp [stop?, isDue, Scope.isDone, hb, hc, hd]
      · by_cases ht : f.timeoutNanos ≤ now.nanos <;> by_cases ho : f.ownNanos ≤ now.nanos <;>
          simp [stop?, isDue, Scope.isDone, hb, hc, hd, ht, ho]
  · by_cases ho : f.ownNanos ≤ now.nanos <;> simp [stop?, isDue, hb, ho]

/-- How the fetch ends. -/
def outcome (f : Fetch) : Stop → Outcome
  | .scope => .failed .cancelled
  | .timeout => .failed (.timeout f.timeout)
  | .itself => f.plan.outcome

/-- The fetch cancels its scope when it ends. -/
def cancelsScope (f : Fetch) (stop : Stop) : Bool :=
  stop = .itself && f.plan.cancelsScope

/-- The instants at which the fetch can end, in nanoseconds. -/
def timers (f : Fetch) (scope : Scope) : List Nat :=
  (scope.deadline.map Instant.nanos).toList ++ [f.timeoutNanos, f.ownNanos]

end Fetch

end EdgeInclude
