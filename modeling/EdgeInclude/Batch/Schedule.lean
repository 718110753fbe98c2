import EdgeInclude.Batch.Basic

/-!
# Batches on a clock

How a batch runs when every fetch goes as planned. Whatever can be done at one instant is done in
turns. The collector does all it can. Then each worker that has something to do of its own accord
goes as far as it can, in the order of the page; then those do so that a cancelled scope lets go on.
So workers learn of a cancelled scope before the collector learns of a worker that broke down. Then
it is the turn of the collector again, and so on until nothing is left to do. Then the clock goes on
to the next instant at which a timer goes off.

Every turn is made of steps of the batch, so all that holds of every run holds here.
-/

namespace EdgeInclude.Batch

variable (b : Setup) (fetcher : Fetcher)

/-- Takes steps one after the other, up to the first one that cannot be taken. -/
def takeAll (s : State) : List Label → State
  | [] => s
  | label :: labels =>
    match step b s label with
    | some s => takeAll s labels
    | none => s

/-- The fetch of a worker that began at an instant. -/
def Worker.fetchSince (w : Worker) (since : Instant) : Fetch :=
  ⟨fetcher w.tag b.scope.request, since, w.timeout⟩

/-- What a worker does next, if it can do something now. -/
def workerNext (s : State) (i : Nat) : List Label :=
  match s.workers[i]? with
  | none => []
  | some w =>
    match w.phase with
    | .waiting => [.fetch i]
    | .fetching since =>
      let f := w.fetchSince b fetcher since
      match f.stop? b.scope s.forest s.now with
      | none => []
      | some stop =>
        (if f.cancelsScope stop then [.cancel b.scope.token] else []) ++
          [.finish i (f.outcome stop)]
    | .fetched _ =>
      -- With the slot taken, a worker waits to be woken: by a free slot, or by being called off.
      if s.slot.isSome && !s.forest.isCancelled b.scope.token then [] else [.offer i]
    | .offering _ => [.publish i]
    | .failing _ (.keep _) | .withdrawing .. => [.keep (.worker i)]
    | .failing _ .callOff => [.callOff (.worker i)]
    | _ => []

/-- Lets a worker do one thing. -/
def act (s : State) (i : Nat) : State :=
  takeAll b s (workerNext b fetcher s i)

/-- The most things that a worker does in a turn: it begins its fetch, the fetch ends, and of a
fragment or an error there are two things to do. -/
def turnLength : Nat := 4

/-- Lets a worker go as far as it can. -/
def workerTurn (s : State) (i : Nat) : State :=
  Nat.repeat (fun s => act b fetcher s i) turnLength s

/-- A worker has something to do of its own accord: it is not in the midst of a fetch, or a timer of
its fetch has gone off. -/
def isDue (s : State) (i : Nat) : Bool :=
  s.workers[i]?.any fun w => match w.phase with
    | .fetching since => (w.fetchSince b fetcher since).isDue b.scope s.now
    | _ => true

/-- Lets each worker go as far as it can, in the order of the page: first those that have something
to do of their own accord, then all. The others can go on only if the scope is cancelled, so that no
third round is needed. -/
def workersTurn (s : State) : State :=
  let all := List.range s.workers.length
  all.foldl (workerTurn b fetcher) ((all.filter (isDue b fetcher s)).foldl (workerTurn b fetcher) s)

/-- What the collector does next, if it can do something now. It sees to its errors first, and then
to the deadline. -/
def collectorNext (s : State) : Option Label :=
  match s.alarm with
  | some (.keep _) => some (.keep .collector)
  | some .callOff => some (.callOff .collector)
  | none =>
    if (expireStep b s).isSome then some .expire
    else if s.slot.isSome then some .collect
    else
      match s.workers.findIdx? fun w => w.phase.isEnded && !w.isJoined with
      | some i => some (.join i)
      | none => if s.isOpen && s.allEnded then some .close else none

/-- Lets the collector do all it can. -/
def collectorTurn (s : State) : State :=
  match (collectorNext b s).bind (step b s) with
  | none => s
  | some next => if next.remaining < s.remaining then collectorTurn next else next
termination_by s.remaining

/-- Takes turns until nothing is left to do at this instant. -/
def settle (s : State) : State :=
  let next := workersTurn b fetcher (collectorTurn b s)
  if next.remaining < s.remaining then settle next else next
termination_by s.remaining

/-- Visits instants until the batch is finished: the batch then, and the cancellation that is still
to come. -/
def runOver : List Instant → Option Appointment → State → Option (State × Option Appointment)
  | [], _, _ => none
  | instant :: later, upcoming, s =>
    let t := Timeline.visit { forest := s.forest, now := s.now, upcoming } instant
    let s := settle b fetcher { s with forest := t.forest, now := t.now }
    if s.isFinished then some (s, t.upcoming) else runOver later t.upcoming s

/-- The instants at which something can happen in a batch that begins now, in nanoseconds. -/
def timers (s : State) : List Nat :=
  s.workers.flatMap fun w => (w.fetchSince b fetcher s.now).timers b.scope

end EdgeInclude.Batch
