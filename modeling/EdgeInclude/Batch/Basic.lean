import EdgeInclude.Batch.Report
import EdgeInclude.Fetch.Plan
import EdgeInclude.Fetch.Timeout

/-!
# Batches

A batch fetches the fragments of all tags of a page at once. Each tag has a worker: it fetches the
fragment and hands it over through a channel with one slot. A collector takes the fragments out of
the channel, joins the workers that have ended, and watches the deadline.

Handing over takes two steps: the worker looks whether the batch is called off, and then puts the
fragment into the slot. Others can come in between, so a fragment can be accepted after the batch was
called off. A worker that finds the slot taken waits and looks again when it is woken. What it saw
before is no use then, so a look that comes to nothing is no step.

Whoever meets an error keeps it, if it is the first, and then calls off the batch: the scope that
all workers share is cancelled, so that the others give up. Keeping and calling off are two steps,
and others can come between them. When the channel is closed and every worker is joined, the batch
is finished: with the first error if there is one, else with all fragments.

`Batch.step` says what one step of a worker, of the collector or of the world outside does. A run is
any sequence of such steps; which of them comes next is not decided here.
-/

namespace EdgeInclude.Batch

open Cancellation

/-- Workers run as tasks, which are known by number. -/
abbrev TaskId := Nat

/-- What one who has met an error has still to do about it. -/
inductive Alarm where
  /-- Keep the error, then call off the batch. -/
  | keep (error : BatchError)
  /-- Call off the batch. -/
  | callOff
deriving DecidableEq

/-- How far a worker has come. -/
inductive Phase where
  /-- It has not begun. -/
  | waiting
  /-- It has been fetching since an instant. -/
  | fetching (since : Instant)
  /-- It has the fragment and wants to hand it over. -/
  | fetched (data : Bytes)
  /-- It has seen that the batch goes on, and is about to put the fragment into the slot. -/
  | offering (data : Bytes)
  /-- Its fetch failed, and it has something to do about that. -/
  | failing (cause : FetchError) (alarm : Alarm)
  /-- It has given up handing over the fragment, and has an error to keep. -/
  | withdrawing (data : Bytes) (error : BatchError)
  /-- It has handed over the fragment. -/
  | published (data : Bytes)
  /-- Its fetch failed. -/
  | failed (cause : FetchError)
  /-- It had the fragment and gave up handing it over. -/
  | unpublished (data : Bytes)
  /-- It broke down. -/
  | crashed (message : Option String)
deriving DecidableEq

/-- The worker has ended. -/
def Phase.isEnded : Phase → Bool
  | published _ | failed _ | unpublished _ | crashed _ => true
  | _ => false

/-- The worker of one tag. -/
structure Worker where
  task : TaskId
  tag : Include
  /-- How long the fetch may take. -/
  timeout : Duration
  phase : Phase := .waiting
  /-- The collector has seen that the worker has ended. -/
  isJoined : Bool := false
deriving DecidableEq

/-- What is fixed while a batch runs. -/
structure Setup where
  /-- The token of the request that the batch is for. -/
  requestToken : Token
  /-- The scope that the workers share; its token is a child of the request's. -/
  scope : Scope
deriving DecidableEq

/-- A call of the fetcher for the tag at an index. -/
structure Call where
  index : Nat
  timeout : Duration
deriving DecidableEq

/-- A batch that is running. -/
structure State where
  forest : Forest
  now : Instant
  workers : List Worker
  /-- The tag that each task is for. -/
  tasks : List (TaskId × TagRef)
  /-- The slot of the channel. -/
  slot : Option Fragment := none
  /-- The channel is open. -/
  isOpen : Bool := true
  /-- The collector has seen the deadline. -/
  isExpired : Bool := false
  /-- What the collector has still to do about an error. -/
  alarm : Option Alarm := none
  /-- The fragments that the collector has taken out of the channel. -/
  collected : List Fragment := []
  firstError : Option BatchError := none
  calls : List Call := []
  reports : List Report := []

/-- Who can meet an error. -/
inductive Actor where
  /-- The worker at an index. -/
  | worker (index : Nat)
  | collector
deriving DecidableEq, Repr

/-- One step of a batch. -/
inductive Label where
  /-- Time passes. -/
  | elapse (instant : Instant)
  /-- A token is cancelled from outside the batch, or by a fetch. -/
  | cancel (token : Token)
  /-- The worker at an index begins its fetch. -/
  | fetch (index : Nat)
  /-- The fetch of the worker at an index ends. -/
  | finish (index : Nat) (outcome : Outcome)
  /-- The worker at an index looks whether the batch goes on, and gives up if it does not. -/
  | offer (index : Nat)
  /-- The worker at an index puts its fragment into the slot. -/
  | publish (index : Nat)
  /-- The collector takes a fragment out of the channel. -/
  | collect
  /-- The collector sees that no more fragments can come. -/
  | close
  /-- The collector joins the worker at an index. -/
  | join (index : Nat)
  /-- The collector sees the deadline. -/
  | expire
  /-- One who has met an error keeps it, if it is the first. -/
  | keep (who : Actor)
  /-- One who has met an error cancels the scope. -/
  | callOff (who : Actor)
deriving DecidableEq

namespace State

/-- How errors name the tag of a worker. -/
def tagRef (i : Nat) (w : Worker) : TagRef :=
  ⟨i, w.tag.rawText⟩

/-- Changes the worker at an index. -/
def setWorker (s : State) (i : Nat) (w : Worker) : State :=
  { s with workers := s.workers.set i w }

/-- Tells something about the batch. -/
def report (s : State) (r : Report) : State :=
  { s with reports := s.reports ++ [r] }

/-- Keeps an error if it is the first. -/
def keep (s : State) (e : BatchError) : State :=
  { s with firstError := s.firstError.or (some e) }

/-- Cancels a token. -/
def cancel (s : State) (t : Token) : State :=
  { s with forest := s.forest.cancel t }

/-- Why the work is given up. -/
def cancelReason (s : State) (b : Setup) : CancelReason :=
  if s.forest.isCancelled b.requestToken then .request
  else if b.scope.isOverdue s.now then .deadline
  else .batch

/-- The error that a failed fetch is. When the work is given up anyway, a fetch that was given up
too is no failure of its tag. -/
def fetchError (s : State) (b : Setup) (tag : TagRef) (cause : FetchError) : BatchError :=
  if cause.isCancellation && b.scope.isDone s.forest s.now then
    .cancelled (s.cancelReason b) (some tag)
  else .fetch tag cause

/-- Every worker has ended, so that nothing more can come into the channel. -/
def allEnded (s : State) : Bool :=
  s.workers.all fun w => w.phase.isEnded

/-- The collector has nothing left to do. -/
def isFinished (s : State) : Bool :=
  !s.isOpen && s.workers.all (·.isJoined) && s.alarm.isNone

/-- What a batch that is finished ends with. -/
def result (s : State) : Except BatchError (List Fragment) :=
  match s.firstError with
  | some e => .error e
  | none => .ok s.collected

/-- How many workers are in the midst of a fetch. -/
def running (s : State) : Nat :=
  s.workers.countP fun w => match w.phase with
    | .fetching _ => true
    | _ => false

end State

/-- What is said of a worker that broke down without a message. -/
def crashMessage (message : Option String) : String :=
  message.getD "worker panicked"

/-- The worker at an index begins its fetch. -/
def fetchStep (s : State) (i : Nat) (w : Worker) : Option State :=
  match w.phase with
  | .waiting =>
    some { s.setWorker i { w with phase := .fetching s.now } with
      calls := s.calls ++ [⟨i, w.timeout⟩] }
  | _ => none

/-- The fetch of the worker at an index ends. -/
def finishStep (b : Setup) (s : State) (i : Nat) (w : Worker) (outcome : Outcome) : Option State :=
  match w.phase with
  | .fetching _ =>
    match outcome with
    | .bytes data => some (s.setWorker i { w with phase := .fetched data })
    | .failed cause =>
      let tag := State.tagRef i w
      let error := s.fetchError b tag cause
      some ((s.setWorker i { w with phase := .failing cause (.keep error) }).report
        (.fetchFailed tag error))
    | .crashed message => some (s.setWorker i { w with phase := .crashed message })
  | _ => none

/-- The worker at an index is about to hand over its fragment. It gives that up if the scope is
cancelled, whether the slot is free or not. -/
def offerStep (b : Setup) (s : State) (i : Nat) (w : Worker) : Option State :=
  match w.phase with
  | .fetched data =>
    if s.forest.isCancelled b.scope.token then
      let tag := State.tagRef i w
      let reason := s.cancelReason b
      some ((s.setWorker i { w with phase := .withdrawing data (.cancelled reason (some tag)) }).report
        (.fetchCancelled tag reason))
    else some (s.setWorker i { w with phase := .offering data })
  | _ => none

/-- The worker at an index puts its fragment into the slot, when that is free. It does not look at the
scope again. -/
def publishStep (s : State) (i : Nat) (w : Worker) : Option State :=
  match w.phase with
  | .offering data =>
    match s.slot with
    | some _ => none
    | none =>
      some { s.setWorker i { w with phase := .published data } with
        slot := some { w.tag.fragment with data } }
  | _ => none

/-- The collector joins the worker at an index. That a worker broke down is found out here. -/
def joinStep (s : State) (i : Nat) (w : Worker) : Option State :=
  if s.alarm.isNone && w.phase.isEnded && !w.isJoined then
    let joined := s.setWorker i { w with isJoined := true }
    match w.phase with
    | .crashed message =>
      let tag := (s.tasks.lookup w.task).getD ⟨0, ""⟩
      let text := crashMessage message
      some ({ joined with
        tasks := s.tasks.filter fun entry => entry.1 ≠ w.task
        alarm := some (.keep (.worker tag text)) }.report (.workerFailed tag text))
    | _ => some joined
  else none

/-- The collector takes a fragment out of the channel. -/
def collectStep (s : State) : Option State :=
  match s.slot with
  | some fragment =>
    if s.alarm.isNone then
      some { s with slot := none, collected := s.collected ++ [fragment] }
    else none
  | none => none

/-- The collector sees that no more fragments can come. -/
def closeStep (s : State) : Option State :=
  if s.alarm.isNone && s.isOpen && s.slot.isNone && s.allEnded then
    some { s with isOpen := false }
  else none

/-- The collector sees the deadline. -/
def expireStep (b : Setup) (s : State) : Option State :=
  if s.alarm.isNone && b.scope.isOverdue s.now && !s.isExpired && !s.isFinished then
    some ({ s with
      isExpired := true
      alarm := some (.keep (.cancelled .deadline none)) }.report
        (.deadlineExceeded s.workers.length s.collected.length))
  else none

/-- One who has met an error keeps it, if it is the first. -/
def keepStep (s : State) : Actor → Option State
  | .worker i => s.workers[i]?.bind fun w =>
    match w.phase with
    | .failing cause (.keep error) =>
      some ((s.setWorker i { w with phase := .failing cause .callOff }).keep error)
    | .withdrawing data error =>
      some ((s.setWorker i { w with phase := .unpublished data }).keep error)
    | _ => none
  | .collector =>
    match s.alarm with
    | some (.keep error) => some ({ s with alarm := some .callOff }.keep error)
    | _ => none

/-- One who has met an error cancels the scope. -/
def callOffStep (b : Setup) (s : State) : Actor → Option State
  | .worker i => s.workers[i]?.bind fun w =>
    match w.phase with
    | .failing cause .callOff =>
      some ((s.setWorker i { w with phase := .failed cause }).cancel b.scope.token)
    | _ => none
  | .collector =>
    match s.alarm with
    | some .callOff => some ({ s with alarm := none }.cancel b.scope.token)
    | _ => none

/-- The state after a step, if the step can be taken. -/
def step (b : Setup) (s : State) : Label → Option State
  | .elapse instant => if s.now ≤ instant then some { s with now := instant } else none
  | .cancel token => some (s.cancel token)
  | .fetch i => s.workers[i]?.bind fun w => fetchStep s i w
  | .finish i outcome => s.workers[i]?.bind fun w => finishStep b s i w outcome
  | .offer i => s.workers[i]?.bind fun w => offerStep b s i w
  | .publish i => s.workers[i]?.bind fun w => publishStep s i w
  | .collect => collectStep s
  | .close => closeStep s
  | .join i => s.workers[i]?.bind fun w => joinStep s i w
  | .expire => expireStep b s
  | .keep who => keepStep s who
  | .callOff who => callOffStep b s who

/-- The state after a sequence of steps, if each of them can be taken. -/
def run (b : Setup) (s : State) : List Label → Option State
  | [] => some s
  | label :: labels => (step b s label).bind fun s => run b s labels

/-! ### What is left to do -/

/-- How much there is still to do about an error. -/
def Alarm.remaining : Alarm → Nat
  | keep _ => 2
  | callOff => 1

/-- How much a worker in a phase has still to do, until it is joined. That a worker broke down gives
the collector something to do too. -/
def Phase.remaining : Phase → Nat
  | waiting => 7
  | fetching _ => 6
  | fetched _ => 5
  | offering _ => 4
  | failing _ alarm => alarm.remaining + 1
  | withdrawing .. => 2
  | crashed _ => 3
  | published _ | failed _ | unpublished _ => 1

/-- How much a worker has still to do. -/
def Worker.remaining (w : Worker) : Nat :=
  if w.isJoined then 0 else w.phase.remaining

/-- How much there is still to do: every step of a worker or of the collector lowers it. -/
def State.remaining (s : State) : Nat :=
  total Worker.remaining s.workers + (if s.slot.isSome then 1 else 0) +
    (if s.isOpen then 1 else 0) + (if s.isExpired then 0 else 3) +
    (s.alarm.map Alarm.remaining).getD 0

end EdgeInclude.Batch
