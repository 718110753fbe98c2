import EdgeInclude.Batch.Schedule
import EdgeInclude.Config.Basic

/-!
# Resolving a page

A resolver fetches the fragments of a page for a request. It makes a scope of its own below the
request's, so that giving up the batch leaves the request alone, and puts the batch deadline on it.
-/

namespace EdgeInclude

open Cancellation

/-- What fetches the fragments of pages. -/
structure Resolver where
  timeouts : TimeoutPolicy := {}
  /-- How long the fragments of a page may take together. -/
  batchDeadline : Option Duration := none
  logger : Log.Logger := {}

/-- How a call of a resolver went. -/
structure Resolution where
  result : Except BatchError (List Fragment)
  reports : List Batch.Report := []
  /-- The calls of the fetcher. -/
  calls : List Batch.Call := []
  /-- How many fetches are left in the midst. -/
  running : Nat := 0
  /-- The clock and the tokens after the call. -/
  timeline : Timeline

namespace Resolver

/-- The component that the lines of a resolver name. -/
def component : String := "esi-resolver"

/-- A resolver with the settings of a configuration. -/
def ofConfig (c : Config) : Resolver :=
  { timeouts := c.timeouts
    batchDeadline := c.batchDeadline
    logger := c.logger (some component) }

/-- The description of a resolver. -/
def describe (r : Resolver) : String :=
  "ParallelResolver \x7b timeouts: " ++ r.timeouts.describe ++ ", batch_deadline: " ++
    TimeoutPolicy.describeOption r.batchDeadline ++ ", .. \x7d"

/-- The worker of the tag at an index. Its task has the same number. -/
def worker (r : Resolver) (index : Nat) (tag : Include) : Batch.Worker :=
  { task := index, tag, timeout := r.timeouts.resolve tag.directives.timeout }

/-- The batch for a page as it begins. There is none if the clock cannot show its deadline. -/
def start (r : Resolver) (tags : List Include) (scope : Scope) (t : Timeline) :
    Option (Batch.Setup × Batch.State) :=
  let (inner, forest) := scope.nested t.forest
  match inner.deadlineWithin? t.now r.batchDeadline with
  | none => none
  | some deadline =>
    let workers := tags.mapIdx r.worker
    some ({ requestToken := scope.token, scope := { inner with deadline } },
      { forest, now := t.now, workers
        tasks := workers.mapIdx fun i w => (w.task, Batch.State.tagRef i w) })

/-- What a batch that is finished tells last. -/
def lastReport (s : Batch.State) (elapsed : Duration) : Batch.Report :=
  match s.firstError with
  | some e => .failed s.workers.length e elapsed
  | none => .resolved s.workers.length elapsed

/-- The time since an instant. -/
def elapsed (now start : Instant) : Duration :=
  ⟨now.since start, by
    have := now.le_max
    simp only [Instant.since, maxInstantNanos, maxDurationNanos, UInt64.size, nanosPerSecond] at *
    omega⟩

/-- How the call went whose batch is finished. The scope of the batch is given back. -/
def conclude (b : Batch.Setup) (start : Instant) (s : Batch.State)
    (upcoming : Option Appointment) : Resolution :=
  { result := s.result
    reports := s.reports ++ [lastReport s (elapsed s.now start)]
    calls := s.calls
    running := s.running
    timeline := { forest := s.forest.release b.scope.token, now := s.now, upcoming } }

/-- Fetches the fragments of the tags of a page for a request. There is no answer if the clock cannot
show the deadline, or the end. -/
def resolve (r : Resolver) (fetcher : Fetcher) (tags : List Include) (scope : Scope)
    (t : Timeline) : Option Resolution :=
  match tags with
  | [] => some { result := .ok [], timeline := t }
  | _ =>
    match r.start tags scope t with
    | none => none
    | some (b, s) =>
      match Batch.runOver b fetcher (t.visits (Batch.timers b fetcher s)) t.upcoming s with
      | none => none
      | some (s, upcoming) => some (conclude b t.now s upcoming)

/-- Calls the resolver several times, each time when the call before has ended. -/
def resolveTimes (r : Resolver) (fetcher : Fetcher) (tags : List Include) (scope : Scope) :
    (times : Nat) → Timeline → Option (List Resolution)
  | 0, _ => some []
  | times + 1, t =>
    match r.resolve fetcher tags scope t with
    | none => none
    | some first =>
      match r.resolveTimes fetcher tags scope times first.timeline with
      | none => none
      | some rest => some (first :: rest)

/-- The lines of a call for a request. -/
def lines (r : Resolver) (request : Request) (reports : List Batch.Report) (elapsed : Nat) :
    List Log.Line :=
  reports.filterMap fun report =>
    report.line? { r.logger with requestId := some request.id } elapsed

end Resolver

end EdgeInclude
