import EdgeInclude.Proofs.Batch.Bookkeeping

/-!
# Errors on their way

Someone who meets an error has it to keep; whoever keeps an error first decides what the batch ends
with.

* **`State.pending?`**, **`keptErrors`**: the errors that are still to be kept, and those that a run
  has kept, in order.
* **`firstError_eq_head?`**: the first error is the first that was kept.
* **`Meets`**: the steps that meet an error, and which one. **`pending?_transition`**: an error that
  is still to be kept was met by a step.
-/

namespace EdgeInclude.Batch

open Cancellation

variable {b : Setup} {s₀ s s' : State} {label : Label} {labels : List Label}
variable {who : Actor} {e : BatchError}

/-- The error that a worker in a phase has still to keep. -/
def Phase.pending? : Phase → Option BatchError
  | failing _ (.keep error) | withdrawing _ error => some error
  | _ => none

/-- The error that someone has still to keep. -/
def State.pending? (s : State) : Actor → Option BatchError
  | .worker i => s.workers[i]?.bind fun w => w.phase.pending?
  | .collector =>
    match s.alarm with
    | some (.keep error) => some error
    | _ => none

/-- The error that a step keeps, if it keeps one. -/
def State.keptBy (s : State) : Label → List BatchError
  | .keep who => (s.pending? who).toList
  | _ => []

/-- The errors that a run keeps, in the order of the run. -/
def keptErrors (b : Setup) (s : State) : List Label → List BatchError
  | [] => []
  | label :: labels => s.keptBy label ++ match step b s label with
    | some s => keptErrors b s labels
    | none => []

/-! ## The first error is the first that was kept

The first error is written once and never again. -/

/-- The last step keeps what it keeps. -/
theorem keptErrors_concat (hrun : run b s₀ labels = some s) (label : Label) :
    keptErrors b s₀ (labels ++ [label]) = keptErrors b s₀ labels ++ s.keptBy label := by
  induction labels generalizing s₀ with
  | nil =>
    obtain rfl : s₀ = s := Option.some.inj hrun
    -- what comes after the step does not matter: there is nothing
    simp only [List.nil_append, keptErrors]
    cases step b s₀ label <;> simp
  | cons first labels ih =>
    obtain ⟨next, hstep, hrest⟩ := Option.bind_eq_some_iff.mp hrun
    simp only [List.cons_append, keptErrors, hstep]
    rw [ih hrest, List.append_assoc]

/-- A step keeps an error exactly if it has one to keep and none is kept yet. -/
theorem firstError_keptBy (h : Transition b s label s') :
    s'.firstError = s.firstError.or (s.keptBy label).head? := by
  cases h with
  | keepFailure hw hp | keepWithdrawal hw hp =>
    simp [State.keptBy, State.pending?, Phase.pending?, State.keep, State.setWorker, hw, hp]
  | keepAlarm ha => simp [State.keptBy, State.pending?, State.keep, ha]
  | _ => exact (Option.or_none ..).symm

/-- The first error stays. -/
theorem firstError_eq_of_ne_none (h : Transition b s label s') (he : s.firstError ≠ none) :
    s'.firstError = s.firstError := by
  rw [firstError_keptBy h]
  cases hfirst : s.firstError with
  | none => exact absurd hfirst he
  | some e => rfl

/-- The first error is the first of those that were kept. -/
theorem firstError_eq_head? (he : s₀.firstError = none) (hrun : run b s₀ labels = some s) :
    s.firstError = (keptErrors b s₀ labels).head? := by
  refine run_induction (motive := fun labels s => s.firstError = (keptErrors b s₀ labels).head?)
    he (fun labels s label s' hrun ih h => ?_) hrun
  rw [firstError_keptBy h, ih, keptErrors_concat hrun]
  -- either an error was kept before, or this is the first one
  cases keptErrors b s₀ labels <;> rfl

/-! ## Where errors come from

Each error that is still to be kept was met by a step. The cases go by the phases that lead to one.
-/

/-- A step that meets an error: who has it to keep, and which error it is. -/
inductive Meets (b : Setup) (s : State) : Label → Actor → BatchError → Prop where
  | fail {i : Nat} {w : Worker} {since : Instant} {cause : FetchError}
      (hw : s.workers[i]? = some w) (hp : w.phase = .fetching since) :
      Meets b s (.finish i (.failed cause)) (.worker i) (s.fetchError b (State.tagRef i w) cause)
  | withdraw {i : Nat} {w : Worker} {data : Bytes}
      (hw : s.workers[i]? = some w) (hp : w.phase = .fetched data)
      (hc : s.forest.isCancelled b.scope.token = true) :
      Meets b s (.offer i) (.worker i) (.cancelled (s.cancelReason b) (some (State.tagRef i w)))
  | crash {i : Nat} {w : Worker} {message : Option String}
      (hw : s.workers[i]? = some w) (hp : w.phase = .crashed message) :
      Meets b s (.join i) .collector
        (.worker ((s.tasks.lookup w.task).getD ⟨0, ""⟩) (crashMessage message))
  | expire (ho : b.scope.isOverdue s.now = true) :
      Meets b s .expire .collector (.cancelled .deadline none)

/-- What a worker has to keep it had before, or has just met. -/
theorem pending?_worker_transition (h : Transition b s label s') :
    ∀ (i : Nat) (w : Worker), s'.workers[i]? = some w → w.phase.pending? = some e →
      s.pending? (.worker i) = some e ∨ Meets b s label (.worker i) e := by
  have hsame : ∀ (i : Nat) (w : Worker), s.workers[i]? = some w → w.phase.pending? = some e →
      s.pending? (.worker i) = some e ∨ Meets b s label (.worker i) e := by
    intro i w hw hp
    exact .inl (by rw [State.pending?, hw]; exact hp)
  cases h with
  | elapse | cancel | collect | close | expire | keepAlarm | callOffAlarm => exact hsame
  | fetch | bytes | crash | offer | publish | keepFailure | keepWithdrawal | callOffFailure =>
    exact forall_worker_set hsame nofun
  | join hw | joinCrashed hw =>
    have hself := hsame _ _ hw
    exact forall_worker_set hsame hself
  -- the two steps that give a worker an error to keep
  | fail hw hp =>
    refine forall_worker_set hsame fun he => .inr ?_
    cases he
    exact .fail hw hp
  | withdraw hw hp hc =>
    refine forall_worker_set hsame fun he => .inr ?_
    cases he
    exact .withdraw hw hp hc

/-- **Every error that is still to be kept was met by a step.** -/
theorem pending?_transition (h : Transition b s label s') (he : s'.pending? who = some e) :
    s.pending? who = some e ∨ Meets b s label who e := by
  cases who with
  | worker i =>
    obtain ⟨w, hw, hp⟩ := Option.bind_eq_some_iff.mp he
    exact pending?_worker_transition h i w hw hp
  | collector =>
    cases h with
    | expire _ ho =>
      cases he
      exact .inr (.expire ho)
    | joinCrashed hw _ hp =>
      cases he
      exact .inr (.crash hw hp)
    | keepAlarm | callOffAlarm => cases he
    | _ => exact .inl he

/-- Nobody has anything to keep at first. -/
theorem pending?_beginning (r : Resolver) (tags : List Include) (scope : Scope) (t : Timeline)
    (who : Actor) : (beginning r tags scope t).pending? who = none := by
  cases who with
  | worker i =>
    rw [State.pending?, Option.bind_eq_none_iff]
    intro w hw
    obtain ⟨tag, -, rfl⟩ := getElem?_beginning hw
    rfl
  | collector => rfl

/-- **What holds of every error that is met holds of the first one.** -/
theorem firstError_transition_of_pending {P : BatchError → Prop} (h : Transition b s label s')
    (hp : ∀ who e, s.pending? who = some e → P e) (hfirst : ∀ e, s.firstError = some e → P e) :
    ∀ e, s'.firstError = some e → P e := by
  intro e he
  rw [firstError_keptBy h, Option.or_eq_some_iff] at he
  rcases he with he | ⟨-, he⟩
  · exact hfirst e he
  · cases label with
    | keep who =>
      cases hpending : s.pending? who with
      | none => rw [State.keptBy, hpending] at he; cases he
      | some error =>
        rw [State.keptBy, hpending] at he
        cases he
        exact hp who _ hpending
    | _ => cases he

end EdgeInclude.Batch
