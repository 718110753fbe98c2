import EdgeInclude.Fetch.Plan

/-!
# Work in bounds

What fetches a fragment may be any work: it comes to its own end after some time, or never. It is done
in the bounds of a scope and of a timeout, of which the first one that is reached ends it. `Work.run`
carries it out on a clock; a fetch that goes by a plan is such work, and `Fetch.run` carries that out.
-/

namespace EdgeInclude

open Cancellation

/-- Work under way. -/
structure Work where
  /-- Its scope and its timeout can end it. -/
  isBounded : Bool := true
  /-- When it began. -/
  start : Instant
  /-- How long it may take. -/
  timeout : Duration
  /-- After how many nanoseconds it comes to its own end; it never does if this is missing. -/
  takes : Option Nat
  /-- At its own end it cancels its scope. -/
  cancelsScope : Bool := false
  outcome : Outcome

namespace Work

/-- When the timer for its timeout goes off. -/
def timeoutNanos (w : Work) : Nat :=
  w.start.timerNanos w.timeout

/-- When it comes to its own end, if it does. -/
def ownNanos? (w : Work) : Option Nat :=
  w.takes.map fun n => w.start.nanos + n

/-- What ends the work at an instant, if something does. Of several things that hold, the scope comes
first, then the timeout, and the own end last. -/
def stop? (w : Work) (scope : Scope) (forest : Forest) (now : Instant) : Option Stop :=
  if w.isBounded && scope.isDone forest now then some .scope
  else if w.isBounded && decide (w.timeoutNanos ≤ now.nanos) then some .timeout
  else if w.ownNanos?.any (fun n => n ≤ now.nanos) then some .itself
  else none

/-- How the work ends. -/
def result (w : Work) : Stop → Outcome
  | .scope => .failed .cancelled
  | .timeout => .failed (.timeout w.timeout)
  | .itself => w.outcome

/-- What is left of the tokens when the work ends. -/
def leave (w : Work) (scope : Scope) (t : Timeline) : Stop → Timeline
  | .itself => if w.cancelsScope then { t with forest := t.forest.cancel scope.token } else t
  | _ => t

/-- The instants at which the work can end, in nanoseconds. -/
def timers (w : Work) (scope : Scope) : List Nat :=
  (scope.deadline.map Instant.nanos).toList ++ w.timeoutNanos :: w.ownNanos?.toList

/-- Visits instants until the work ends. -/
def runOver (w : Work) (scope : Scope) : List Instant → Timeline → Option (Outcome × Timeline)
  | [], _ => none
  | instant :: later, t =>
    let t := t.visit instant
    match w.stop? scope t.forest t.now with
    | none => w.runOver scope later t
    | some stop => some (w.result stop, w.leave scope t stop)

/-- Carries the work out: how it ends, and the clock at its end. There is no answer if the clock cannot
show that instant. -/
def run (w : Work) (scope : Scope) (t : Timeline) : Option (Outcome × Timeline) :=
  w.runOver scope (t.visits (w.timers scope)) t

end Work

/-- How long a fetch takes if nothing interferes, in nanoseconds. -/
def FetchPlan.takes (p : FetchPlan) : Nat :=
  match p.delay with
  | some d => min d.nanos Instant.farNanos
  | none => 0

namespace Fetch

/-- A fetch that goes by a plan is work that comes to its own end. -/
def work (f : Fetch) : Work where
  isBounded := f.plan.isBounded
  start := f.start
  timeout := f.timeout
  takes := some f.plan.takes
  cancelsScope := f.plan.cancelsScope
  outcome := f.plan.outcome

theorem ownNanos_eq (f : Fetch) : f.ownNanos = f.start.nanos + f.plan.takes := by
  unfold ownNanos FetchPlan.takes
  cases f.plan.delay <;> rfl

/-- The same ends the fetch and its work. -/
theorem stop?_work (f : Fetch) (scope : Scope) (forest : Forest) (now : Instant) :
    f.work.stop? scope forest now = f.stop? scope forest now := by
  have hown : f.work.ownNanos?.any (fun n => n ≤ now.nanos) = decide (f.ownNanos ≤ now.nanos) := by
    rw [ownNanos_eq]
    rfl
  unfold Work.stop? stop?
  rw [hown]
  simp only [decide_eq_true_eq]
  rfl

theorem result_work (f : Fetch) (stop : Stop) : f.work.result stop = f.outcome stop := by
  cases stop <;> rfl

/-- Carries out a fetch that begins now. -/
def run (plan : FetchPlan) (timeout : Duration) (scope : Scope) (t : Timeline) :
    Option (Outcome × Timeline) :=
  (work ⟨plan, t.now, timeout⟩).run scope t

end Fetch

end EdgeInclude
