import EdgeInclude.Proofs.Batch.Bookkeeping

/-!
# Polls

A fetch is polled again and again until it ends. A poll takes its time: a bounded fetch looks first
whether its scope is cancelled, then at the deadline, at the timeout, and at last at its own end, and
others can come in between. So what a fetch ends with is decided by the state in which its last poll
begins as much as by that in which it ends.

The steps of a run show only where a fetch ends. Where its last poll began is told beside the run, by a
number of steps.

* **`PolledAt`**: the last poll of the fetch that ends with a step began after so many steps, in a state
  with some property.
* **`EndsAsPlanned`**, **`PlannedRun`**: fetches end as planned, in whole runs.
  **`PlannedRun.append`**: runs that go as planned compose.
* **`EndsBounded`**, **`BoundedRun`**: fetches end as bounded ones do, in whole runs.
  **`exists_boundedRun`**: so they do in runs that go as planned if every plan is bounded.
-/

namespace EdgeInclude.Batch

open Cancellation

variable {P Q : State → Nat → Outcome → Prop} {b : Setup} {fetcher : Fetcher} {s₀ s : State}
variable {labels first second : List Label} {tags : List Include} {i k n : Nat} {outcome : Outcome}

/-! ## Where the last poll begins

Nothing is asked of steps that are no end of a fetch. -/

/-- If a fetch ends with the step at position `k` of a run, its last poll began after `n` steps, in a
state with the property. -/
def PolledAt (P : State → Nat → Outcome → Prop) (b : Setup) (s₀ : State) (labels : List Label)
    (k n : Nat) : Prop :=
  ∀ i outcome, labels[k]? = some (.finish i outcome) →
    n ≤ k ∧ ∃ s, run b s₀ (labels.take n) = some s ∧ P s i outcome

/-- If the property holds in the first state, all polls may have begun there. -/
theorem polledAt_zero (h : ∀ i outcome, Label.finish i outcome ∈ labels → P s₀ i outcome) :
    PolledAt P b s₀ labels k 0 :=
  fun i outcome hk => ⟨Nat.zero_le k, s₀, rfl, h i outcome (List.mem_of_getElem? hk)⟩

/-- What more is known of the last poll is known of it. -/
theorem PolledAt.mono (h : PolledAt P b s₀ labels k n)
    (hPQ : ∀ earlier s, run b s₀ earlier = some s → ∀ i outcome, P s i outcome → Q s i outcome) :
    PolledAt Q b s₀ labels k n := by
  intro i outcome hk
  obtain ⟨hle, s, hrun, hp⟩ := h i outcome hk
  exact ⟨hle, s, hrun, hPQ _ s hrun i outcome hp⟩

/-- What comes after a step does not matter for it. -/
theorem PolledAt.append_left (h : PolledAt P b s₀ first k n) (hk : k < first.length)
    (second : List Label) : PolledAt P b s₀ (first ++ second) k n := by
  intro i outcome hlabel
  rw [List.getElem?_append_left hk] at hlabel
  obtain ⟨hle, s, hrun, hp⟩ := h i outcome hlabel
  have htake : (first ++ second).take n = first.take n :=
    List.take_append_of_le_length (Nat.le_trans hle (Nat.le_of_lt hk))
  exact ⟨hle, s, by rw [htake, hrun], hp⟩

/-- What comes before a run shifts its positions. -/
theorem PolledAt.append_right (hrun : run b s₀ first = some s) (h : PolledAt P b s second k n) :
    PolledAt P b s₀ (first ++ second) (first.length + k) (first.length + n) := by
  intro i outcome hlabel
  rw [List.getElem?_append_right (Nat.le_add_right _ _), Nat.add_sub_cancel_left] at hlabel
  obtain ⟨hle, s', hrun', hp⟩ := h i outcome hlabel
  refine ⟨Nat.add_le_add_left hle _, s', ?_, hp⟩
  rw [List.take_length_add_append, run_append, hrun]
  exact hrun'

/-! ## Fetches that end as planned -/

/-- The fetch of the worker at an index is under way, and something ends it with the outcome, as its
plan, its timeout and its scope have it. -/
def EndsAsPlanned (b : Setup) (fetcher : Fetcher) (s : State) (i : Nat) (outcome : Outcome) : Prop :=
  ∃ (w : Worker) (since : Instant) (stop : Stop), s.workers[i]? = some w ∧
    w.phase = .fetching since ∧
    (w.fetchSince b fetcher since).stop? b.scope s.forest s.now = some stop ∧
    (w.fetchSince b fetcher since).outcome stop = outcome

/-- Every fetch that ends in the run ends as planned, as things stand when its last poll begins. -/
def PlannedRun (b : Setup) (fetcher : Fetcher) (s₀ : State) (labels : List Label) : Prop :=
  ∀ k, ∃ n, PolledAt (EndsAsPlanned b fetcher) b s₀ labels k n

theorem plannedRun_of_polled
    (h : ∀ i outcome, Label.finish i outcome ∈ labels → EndsAsPlanned b fetcher s₀ i outcome) :
    PlannedRun b fetcher s₀ labels :=
  fun _ => ⟨0, polledAt_zero h⟩

/-- **Runs that go as planned compose.** -/
theorem PlannedRun.append (hfirst : PlannedRun b fetcher s₀ first) (hrun : run b s₀ first = some s)
    (hsecond : PlannedRun b fetcher s second) : PlannedRun b fetcher s₀ (first ++ second) := by
  intro k
  rcases Nat.lt_or_ge k first.length with hk | hk
  · obtain ⟨n, hn⟩ := hfirst k
    exact ⟨n, hn.append_left hk second⟩
  · obtain ⟨n, hn⟩ := hsecond (k - first.length)
    have hshifted := hn.append_right hrun
    rw [Nat.add_sub_cancel' hk] at hshifted
    exact ⟨_, hshifted⟩

/-! ## Bounded fetches

A bounded fetch looks at its scope and its timer when its last poll begins, and what comes about
during that poll does not change how it ends. -/

/-- The fetch of the worker at an index is under way, and it is bounded: a poll that begins now ends it
with a cancellation if its scope is cancelled, whatever else it could end with. -/
def EndsBounded (b : Setup) (s : State) (i : Nat) (outcome : Outcome) : Prop :=
  (∃ (w : Worker) (since : Instant), s.workers[i]? = some w ∧ w.phase = .fetching since) ∧
    (s.forest.isCancelled b.scope.token = true → outcome = .failed .cancelled)

/-- Every fetch that ends in the run is bounded; the last poll of the one that ends with the step at
position `k` began after `polls k` steps. -/
def BoundedRun (b : Setup) (s₀ : State) (labels : List Label) (polls : Nat → Nat) : Prop :=
  ∀ k, PolledAt (EndsBounded b) b s₀ labels k (polls k)

/-- The scope comes first in every poll of a bounded fetch. -/
theorem EndsAsPlanned.endsBounded (h : EndsAsPlanned b fetcher s i outcome)
    (hbounded : ∀ w ∈ s.workers, (fetcher w.tag b.scope.request).isBounded = true) :
    EndsBounded b s i outcome := by
  obtain ⟨w, since, stop, hw, hp, hstop, rfl⟩ := h
  refine ⟨⟨w, since, hw, hp⟩, fun hup => ?_⟩
  have hplan : (w.fetchSince b fetcher since).plan.isBounded = true :=
    hbounded w (List.mem_of_getElem? hw)
  rw [Fetch.stop?, if_pos (by rw [hplan, Scope.isDone, hup]; rfl)] at hstop
  cases hstop
  rfl

/-- **A run that goes as planned is bounded if all plans are.** -/
theorem exists_boundedRun {r : Resolver} {scope : Scope} {t : Timeline}
    (hstart : r.start tags scope t = some (b, s₀)) (hplanned : PlannedRun b fetcher s₀ labels)
    (hbounded : ∀ tag ∈ tags, (fetcher tag scope.request).isBounded = true) :
    ∃ polls, BoundedRun b s₀ labels polls := by
  choose polls hpolls using hplanned
  refine ⟨polls, fun k => (hpolls k).mono fun earlier s hrun i outcome hends => ?_⟩
  refine hends.endsBounded fun w hw => ?_
  have htags := (bookkeeping_of_run hstart hrun).recorded.map_tag
  have htag : w.tag ∈ tags := htags ▸ List.mem_map_of_mem hw
  obtain ⟨deadline, -, rfl, -⟩ := start_eq_some_iff.mp hstart
  exact hbounded w.tag htag

end EdgeInclude.Batch
