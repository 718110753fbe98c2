import EdgeInclude.Proofs.Batch.FinishingTime
import EdgeInclude.Proofs.Config.RoundTrip

/-!
# Batch deadlines and the end of the clock

A batch deadline is written as a duration, which may have up to `2 ^ 64 - 1` seconds; the clock shows
instants up to `2 ^ 63 - 1` seconds after its start. A configuration is read whatever its batch deadline
is, and when a call begins the clock may be unable to show the instant at which the time is up.

* **`Instant.ending`**: when something ends. **`Scope.ending_deadlineWithin?`**: the deadline of a batch
  is the earlier of two.
* **`Batch.batch_begins_unless_clock_ends`**: when a batch can begin, with which deadline, and what
  becomes of the call otherwise.
* **`Batch.longest_deadline_leaves_no_answer`**: a configuration that is read, and with which no page
  with a tag has an answer.
-/

namespace EdgeInclude

/-- When something ends that ends at an instant, in nanoseconds. Without an instant it has no end. -/
def Instant.ending : Option Instant → ℕ∞
  | some instant => (instant.nanos : ℕ)
  | none => ⊤

/-- Of two deadlines the earlier one ends first. -/
theorem Instant.ending_min (s t : Instant) :
    ending (some (s.min t)) = min (ending (some s)) (ending (some t)) := by
  unfold Instant.min
  split
  · rename_i hle
    exact (min_eq_left (Nat.cast_le.mpr hle)).symm
  · rename_i hle
    exact (min_eq_right (Nat.cast_le.mpr (Nat.le_of_not_le hle))).symm

/-- The deadline of a batch ends when the request does or its own time is up. -/
theorem Scope.ending_deadlineWithin? {scope : Scope} {now : Instant} {limit : Option Duration}
    {deadline : Option Instant} (h : scope.deadlineWithin? now limit = some deadline) :
    Instant.ending deadline =
      min (Instant.ending scope.deadline) ((now.nanos : ℕ) + Duration.limit limit) := by
  rcases deadlineWithin?_cases h with ⟨rfl, rfl⟩ | ⟨d, latest, rfl, hlatest, hdeadline⟩
  · have htop : (now.nanos : ℕ∞) + Duration.limit none = ⊤ := add_top _
    rw [htop, min_top_right]
  · have hlimit : Instant.ending (some latest) = (now.nanos : ℕ) + Duration.limit (some d) := by
      show (latest.nanos : ℕ∞) = (now.nanos : ℕ∞) + (d.nanos : ℕ)
      rw [hlatest, Nat.cast_add]
    rcases hdeadline with ⟨hnone, rfl⟩ | ⟨own, hown, rfl⟩
    · rw [hnone, ← hlimit]
      exact (min_top_left _).symm
    · rw [hown, Instant.ending_min, hlimit]

namespace Batch

variable {c : Config} {tags : List Include} {scope : Scope} {t : Timeline}

/-- **A batch begins unless its time is up behind the end of the clock.** Every configuration is read
from its texts, whatever its batch deadline is. The batch of a resolver that is made with it begins
exactly if there is no batch deadline, or the clock can show the instant that is as far off; the
deadline of the batch is then the earlier of that instant and the deadline of the request. Otherwise the
call has no answer, whatever fetches the fragments. -/
theorem batch_begins_unless_clock_ends (hne : tags ≠ []) :
    (Config.ofToml c.toToml = .ok c ∧ Config.ofJson c.toJson = .ok c) ∧
    ((∃ b s₀, (Resolver.ofConfig c).start tags scope t = some (b, s₀)) ↔
      ∀ d, c.batchDeadline = some d → t.now.nanos + d.nanos ≤ maxInstantNanos) ∧
    (∀ b s₀, (Resolver.ofConfig c).start tags scope t = some (b, s₀) →
      Instant.ending b.scope.deadline =
        min (Instant.ending scope.deadline) ((t.now.nanos : ℕ) + Duration.limit c.batchDeadline)) ∧
    ∀ fetcher d, c.batchDeadline = some d → maxInstantNanos < t.now.nanos + d.nanos →
      (Resolver.ofConfig c).resolve fetcher tags scope t = none := by
  refine ⟨⟨Config.ofToml_toToml c, Config.ofJson_toJson c⟩, ?_, fun b s₀ hstart => ?_,
    fun fetcher d hd hfar => resolve_eq_none hne hd hfar⟩
  · have hdeadline : (∃ deadline, scope.deadlineWithin? t.now c.batchDeadline = some deadline) ↔
        ∀ d, c.batchDeadline = some d → t.now.nanos + d.nanos ≤ maxInstantNanos :=
      Scope.exists_deadlineWithin?_iff
    rw [← hdeadline]
    constructor
    · rintro ⟨b, s₀, hstart⟩
      obtain ⟨deadline, h, -⟩ := start_eq_some_iff.mp hstart
      exact ⟨deadline, h⟩
    · rintro ⟨deadline, h⟩
      exact ⟨_, _, start_eq_some_iff.mpr ⟨deadline, h, rfl, rfl⟩⟩
  · obtain ⟨deadline, hdeadline, rfl, -⟩ := start_eq_some_iff.mp hstart
    exact Scope.ending_deadlineWithin? hdeadline

/-- The lone request has sixty seconds. -/
def minuteScope : Scope := { loneScope with deadline := some ⟨60 * nanosPerSecond, by decide⟩ }

/-- A batch has ninety seconds. -/
def slackConfig : Config := { batchDeadline := some (.ofSeconds 90) }

/-- A time limit that the clock can show, and a request that ends before. -/
theorem batch_begins_unless_clock_ends_bounded : twoTags ≠ [] ∧
    Config.ofToml slackConfig.toToml = .ok slackConfig ∧
    ∃ b s₀, (Resolver.ofConfig slackConfig).start twoTags minuteScope loneTimeline = some (b, s₀) ∧
      Instant.ending b.scope.deadline = (60 * nanosPerSecond : ℕ) := by
  have hne : twoTags ≠ [] := by decide
  obtain ⟨⟨htoml, -⟩, hbegins, hdeadline, -⟩ :=
    @batch_begins_unless_clock_ends slackConfig twoTags minuteScope loneTimeline hne
  have hshown : ∀ d, slackConfig.batchDeadline = some d →
      loneTimeline.now.nanos + d.nanos ≤ maxInstantNanos := by
    rintro d ⟨⟩
    decide
  obtain ⟨b, s₀, hstart⟩ := hbegins.mpr hshown
  refine ⟨hne, htoml, b, s₀, hstart, ?_⟩
  rw [hdeadline b s₀ hstart]
  decide

/-- The longest batch deadline in whole seconds. -/
def longestDeadline : Config := { batchDeadline := some (.ofSeconds 18446744073709551615) }

/-- A configuration may be read with which a page with a tag has no answer, whatever the clock
shows and whatever fetches the fragments. -/
theorem longest_deadline_leaves_no_answer :
    ∃ c, Config.ofToml "batch_deadline = \"18446744073709551615s\"" = .ok c ∧
      ∀ fetcher tags scope t, tags ≠ [] →
        (Resolver.ofConfig c).resolve fetcher tags scope t = none := by
  have hread : Config.ofToml "batch_deadline = \"18446744073709551615s\"" = .ok longestDeadline := by
    decide +kernel
  have hfar : maxInstantNanos < (Duration.ofSeconds 18446744073709551615).nanos := by
    decide +kernel
  exact ⟨longestDeadline, hread, fun fetcher tags scope t hne =>
    resolve_eq_none hne rfl (Nat.lt_add_left _ hfar)⟩

end Batch

end EdgeInclude
