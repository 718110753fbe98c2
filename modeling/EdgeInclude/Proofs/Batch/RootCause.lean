import EdgeInclude.Proofs.Batch.Delivery
import EdgeInclude.Proofs.Batch.Errors
import EdgeInclude.Proofs.Batch.Nesting

/-!
# The root cause of a failure

A batch that is called off makes the other workers give up, and they have errors to keep too. Those
errors are fallout. Whoever calls off a batch has kept its own error before, so fallout comes too
late to be the first error.

* **`isCalledOff_of_meets`**: fallout is met only where the batch is cancelled and its request is not.
* **`Blamed`**: a batch that is cancelled without its request has a first error, and so has one in
  which fallout is still to be kept.
* **`root_cause_first`**: the error of a batch is the first that was kept, and never fallout.
-/

namespace EdgeInclude.Batch

open Cancellation

variable {b : Setup} {s₀ s s' : State} {label : Label} {labels : List Label} {tags : List Include}
variable {who : Actor} {e : BatchError}

/-! ## Where fallout comes from

Fallout says that the batch was called off, and it is only met where that is so. -/

/-- The error says no more than that the batch was called off. -/
def IsFallout (e : BatchError) : Prop :=
  ∃ seenAt, e = .cancelled .batch seenAt

/-- The batch is named where neither request nor deadline is to blame. -/
theorem of_cancelReason_eq_batch (h : s.cancelReason b = .batch) :
    s.forest.isCancelled b.requestToken = false ∧ b.scope.isOverdue s.now = false := by
  unfold State.cancelReason at h
  split at h
  · cases h
  · rename_i hr
    split at h
    · cases h
    · rename_i ho
      exact ⟨Bool.eq_false_iff.mpr hr, Bool.eq_false_iff.mpr ho⟩

/-- The batch is cancelled, and its request is not. -/
def State.IsCalledOff (b : Setup) (s : State) : Prop :=
  s.forest.isCancelled b.scope.token = true ∧ s.forest.isCancelled b.requestToken = false

/-- **Fallout shows that the batch is called off.** -/
theorem isCalledOff_of_fetchError {tag : TagRef} {cause : FetchError}
    (h : IsFallout (s.fetchError b tag cause)) :
    s.IsCalledOff b := by
  obtain ⟨seenAt, h⟩ := h
  unfold State.fetchError at h
  split at h
  · rename_i hdone
    simp only [BatchError.cancelled.injEq] at h
    obtain ⟨hr, ho⟩ := of_cancelReason_eq_batch h.1
    rw [Bool.and_eq_true, Scope.isDone, ho, Bool.or_false] at hdone
    exact ⟨hdone.2, hr⟩
  · cases h

/-- No other error is fallout, so fallout shows that the batch is called off. -/
theorem isCalledOff_of_meets (h : Meets b s label who e) (hf : IsFallout e) : s.IsCalledOff b := by
  cases h with
  | fail => exact isCalledOff_of_fetchError hf
  | withdraw _ _ hc =>
    obtain ⟨seenAt, hf⟩ := hf
    simp only [BatchError.cancelled.injEq] at hf
    exact ⟨hc, (of_cancelReason_eq_batch hf.1).1⟩
  | crash | expire =>
    obtain ⟨seenAt, hf⟩ := hf
    cases hf

/-! ## Who is to blame

A batch is called off only by someone who has kept an error first. So by the time fallout is met
there is a first error, and it is not fallout. -/

/-- A batch that is called off has a first error, and so has one in which fallout is still to be kept.
The first error is not fallout. -/
structure Blamed (b : Setup) (s : State) : Prop where
  of_isCalledOff : s.IsCalledOff b → s.firstError ≠ none
  of_pending : ∀ who e, s.pending? who = some e → IsFallout e → s.firstError ≠ none
  not_isFallout : ∀ e, s.firstError = some e → ¬ IsFallout e

/-- A batch is called off by a step only if an error was kept before, or if the step cancels the token
of the batch from outside. -/
theorem of_isCalledOff_transition (hb : Bookkeeping tags labels s) (hn : Nested b s.forest)
    (hblamed : Blamed b s) (hl : label ≠ .cancel b.scope.token) (h : Transition b s label s')
    (hoff : s'.IsCalledOff b) : s'.firstError ≠ none := by
  refine firstError_ne_none_transition ?_ h
  obtain ⟨hup, hdown⟩ := hoff
  have hdown' : s.forest.isCancelled b.requestToken = false := by
    cases hr : s.forest.isCancelled b.requestToken with
    | false => rfl
    | true => rw [isCancelled_transition hn h hr] at hdown; cases hdown
  cases h with
  | cancel t =>
    -- a cancellation from outside that reaches the batch reaches the request, which is not cancelled
    have ht : t ≠ b.scope.token := fun heq => hl (by rw [heq])
    rcases hn.of_cancel ht hup with hup | hr
    · exact hblamed.of_isCalledOff ⟨hup, hdown'⟩
    · rw [State.cancel, hr] at hdown
      cases hdown
  -- whoever calls off the batch has kept an error before
  | callOffFailure hw hp => exact hb.accounted.of_kept _ _ hw (by rw [hp]; rfl)
  | callOffAlarm ha => exact hb.accounted.of_callOff ha
  | _ => exact hblamed.of_isCalledOff ⟨hup, hdown'⟩

/-- Unless others cancel the batch, each step leaves someone to blame. -/
theorem blamed_transition (hb : Bookkeeping tags labels s) (hn : Nested b s.forest)
    (hblamed : Blamed b s) (hl : label ≠ .cancel b.scope.token) (h : Transition b s label s') :
    Blamed b s' where
  of_isCalledOff := of_isCalledOff_transition hb hn hblamed hl h
  of_pending who e he hf := by
    refine firstError_ne_none_transition ?_ h
    rcases pending?_transition h he with he | hmeets
    · exact hblamed.of_pending who e he hf
    · exact hblamed.of_isCalledOff (isCalledOff_of_meets hmeets hf)
  not_isFallout := by
    -- whoever keeps fallout finds an error kept already
    by_cases hnone : s.firstError = none
    · exact firstError_transition_of_pending h
        (fun who e he hf => hblamed.of_pending who e he hf hnone) hblamed.not_isFallout
    · rw [firstError_eq_of_ne_none h hnone]
      exact hblamed.not_isFallout

/-- At first nothing is called off. -/
theorem blamed_beginning {r : Resolver} {scope : Scope} {t : Timeline}
    (hf : t.forest.WellFormed) (hr : scope.token < t.forest.nodes.length)
    (hstart : r.start tags scope t = some (b, s₀)) : Blamed b s₀ := by
  obtain ⟨deadline, -, rfl, rfl⟩ := start_eq_some_iff.mp hstart
  refine ⟨fun hoff => ?_, fun who e he => ?_, nofun⟩
  · -- the token of the batch is cancelled at birth only if the request is cancelled
    obtain ⟨hup, hdown⟩ := hoff
    have hup' : (t.forest.child scope.token).2.isCancelled t.forest.nodes.length = true := hup
    have hdown' : (t.forest.child scope.token).2.isCancelled scope.token = false := hdown
    rw [Forest.isCancelled_child hf, if_pos rfl] at hup'
    rw [Forest.isCancelled_child hf, if_neg (Nat.ne_of_lt hr), hup'] at hdown'
    cases hdown'
  · rw [pending?_beginning] at he
    cases he

/-- **The root cause is never masked by its fallout.** As long as nobody outside cancels the token of
the batch itself: a batch whose token is cancelled while that of the request is not has its first
error already; the first error is the first that anyone kept; and what the batch ends with is that
error, which is never that the batch was called off. -/
theorem root_cause_first {r : Resolver} {scope : Scope} {t : Timeline}
    (hf : t.forest.WellFormed) (hr : scope.token < t.forest.nodes.length)
    (hstart : r.start tags scope t = some (b, s₀)) (hrun : run b s₀ labels = some s)
    (hself : Label.cancel b.scope.token ∉ labels) :
    (s.forest.isCancelled b.scope.token = true → s.forest.isCancelled b.requestToken = false →
      s.firstError.isSome = true) ∧
    s.firstError = (keptErrors b s₀ labels).head? ∧
    ∀ error, s.result = .error error →
      (keptErrors b s₀ labels).head? = some error ∧
        ∀ seenAt, error ≠ .cancelled .batch seenAt := by
  have hnested := nested_beginning hf hr hstart
  -- the condition on the steps is part of what is shown, as it has to hold of each part of the run
  have hblamed : Label.cancel b.scope.token ∉ labels → Blamed b s := by
    refine run_induction (motive := fun labels s => Label.cancel b.scope.token ∉ labels → Blamed b s)
      (fun _ => blamed_beginning hf hr hstart) (fun labels s label s' hrun ih h hself => ?_) hrun
    rw [List.mem_append, not_or, List.mem_singleton] at hself
    exact blamed_transition (bookkeeping_of_run hstart hrun) (nested_of_run hnested hrun)
      (ih hself.1) (Ne.symm hself.2) h
  have hblamed := hblamed hself
  have hnone : s₀.firstError = none := by
    obtain ⟨deadline, -, rfl, rfl⟩ := start_eq_some_iff.mp hstart
    rfl
  have hfirst := firstError_eq_head? hnone hrun
  refine ⟨fun hup hdown => ?_, hfirst, fun error herror => ?_⟩
  · rw [Option.isSome_iff_ne_none]
    exact hblamed.of_isCalledOff ⟨hup, hdown⟩
  · have he := result_eq_error_iff.mp herror
    rw [← hfirst]
    exact ⟨he, fun seenAt heq => hblamed.not_isFallout error he ⟨seenAt, heq⟩⟩

/-- The fetch of the second tag fails. The first worker is told to give up, and its fallout is kept
second. -/
def givingUp : List Label :=
  [.fetch 0, .fetch 1, .finish 1 (.failed (.connection "refused")), .keep (.worker 1),
    .callOff (.worker 1), .finish 0 (.failed .cancelled), .keep (.worker 0), .callOff (.worker 0),
    .join 0, .join 1, .close]

/-- A fetch fails, calls the batch off, and the other one gives up. -/
theorem root_cause_first_givingUp :
    ∃ s, loneTimeline.forest.WellFormed ∧
      Resolver.start {} twoTags loneScope loneTimeline =
        some (loneSetup, beginning {} twoTags loneScope loneTimeline) ∧
      run loneSetup (beginning {} twoTags loneScope loneTimeline) givingUp = some s ∧
      Label.cancel loneSetup.scope.token ∉ givingUp ∧
      s.forest.isCancelled loneSetup.scope.token = true ∧
      s.forest.isCancelled loneSetup.requestToken = false ∧ s.firstError.isSome = true ∧
      s.result = .error (.fetch ⟨1, ""⟩ (.connection "refused")) ∧
      keptErrors loneSetup (beginning {} twoTags loneScope loneTimeline) givingUp =
        [.fetch ⟨1, ""⟩ (.connection "refused"), .cancelled .batch (some ⟨0, ""⟩)] ∧
      ∀ seenAt, BatchError.fetch ⟨1, ""⟩ (.connection "refused") ≠ .cancelled .batch seenAt := by
  have hf : loneTimeline.forest.WellFormed := Forest.wellFormed_empty.create
  have hstart : Resolver.start {} twoTags loneScope loneTimeline =
      some (loneSetup, beginning {} twoTags loneScope loneTimeline) := by rfl
  obtain ⟨s, hrun, hup, hdown, herror⟩ :
      ∃ s, run loneSetup (beginning {} twoTags loneScope loneTimeline) givingUp = some s ∧
        s.forest.isCancelled loneSetup.scope.token = true ∧
        s.forest.isCancelled loneSetup.requestToken = false ∧
        s.result = .error (.fetch ⟨1, ""⟩ (.connection "refused")) :=
    ⟨_, by rfl, by rfl, by rfl, by rfl⟩
  have hself : Label.cancel loneSetup.scope.token ∉ givingUp := by decide
  obtain ⟨hblame, -, hfirst⟩ := root_cause_first hf (by decide) hstart hrun hself
  exact ⟨s, hf, hstart, hrun, hself, hup, hdown, hblame hup hdown, herror, by rfl,
    (hfirst _ herror).2⟩

end EdgeInclude.Batch
