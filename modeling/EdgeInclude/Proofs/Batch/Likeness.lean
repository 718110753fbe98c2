import Mathlib.Logic.Function.Basic
import EdgeInclude.Proofs.Batch.Transition

/-!
# Batches that look alike

A batch compares the numbers of its tasks and nothing more, and of all tokens it looks at two: that
of its request and its own. So a batch whose tasks are numbered otherwise, or whose tokens live in
another forest, takes the same steps as long as the numbers are distinct and the two flags are the
same.

* **`SameView`**: the deadline and the two flags are the same.
* **`step_transport`**: a step that leaves the tokens alone is the same step for both batches.
* **`run_renumber`**: the numbers of the tasks do not matter for any run.
-/

namespace EdgeInclude.Batch

open Cancellation

variable {b b' : Setup} {s s' : State} {label : Label} {labels : List Label} {f : Forest}
variable {number : TaskId → TaskId}

/-- A batch sees the same when it goes by the tokens of another forest. -/
structure SameView (b : Setup) (f : Forest) (b' : Setup) (f' : Forest) : Prop where
  deadline : b'.scope.deadline = b.scope.deadline
  request : f'.isCancelled b'.requestToken = f.isCancelled b.requestToken
  scope : f'.isCancelled b'.scope.token = f.isCancelled b.scope.token

/-- The worker with another number for its task. -/
def Worker.renumber (number : TaskId → TaskId) (w : Worker) : Worker :=
  { w with task := number w.task }

/-- The batch with other numbers for its tasks, and other tokens. -/
def State.transport (number : TaskId → TaskId) (f : Forest) (s : State) : State :=
  { s with
    forest := f
    workers := s.workers.map (Worker.renumber number)
    tasks := s.tasks.map fun entry => (number entry.1, entry.2) }

/-! ## What is seen

Two batches look alike if the same workers have come as far and both flags are the same. Reasons and
errors are read off what is seen, so they are the same too. -/

theorem setWorker_transport (s : State) (i : Nat) (w : Worker) :
    (s.transport number f).setWorker i (w.renumber number) =
      (s.setWorker i w).transport number f := by
  simp only [State.setWorker, State.transport, List.map_set]

theorem allEnded_transport (s : State) : (s.transport number f).allEnded = s.allEnded := by
  simp only [State.allEnded, State.transport, List.all_map]
  rfl

theorem isFinished_transport (s : State) : (s.transport number f).isFinished = s.isFinished := by
  simp only [State.isFinished, State.transport, List.all_map]
  rfl

theorem SameView.isOverdue {f' : Forest} (h : SameView b f b' f') (now : Instant) :
    b'.scope.isOverdue now = b.scope.isOverdue now := by
  unfold Scope.isOverdue
  rw [h.deadline]

/-- The reason for giving up is the same for both. -/
theorem SameView.cancelReason (h : SameView b s.forest b' f) :
    (s.transport number f).cancelReason b' = s.cancelReason b := by
  unfold State.cancelReason
  show (if f.isCancelled b'.requestToken then _ else if b'.scope.isOverdue s.now then _ else _) = _
  rw [h.request, h.isOverdue]

/-- A failed fetch is the same error for both. -/
theorem SameView.fetchError (h : SameView b s.forest b' f) (tag : TagRef) (cause : FetchError) :
    (s.transport number f).fetchError b' tag cause = s.fetchError b tag cause := by
  have hdone : b'.scope.isDone f s.now = b.scope.isDone s.forest s.now := by
    rw [Scope.isDone, Scope.isDone, h.scope, h.isOverdue]
  unfold State.fetchError
  show (if cause.isCancellation && b'.scope.isDone f s.now then _ else _) = _
  rw [hdone, h.cancelReason]

/-- Distinct numbers lead to what the old ones led to. -/
theorem lookup_map_of_injective {α : Type} (hn : Function.Injective number)
    (l : List (TaskId × α)) (task : TaskId) :
    (l.map fun entry => (number entry.1, entry.2)).lookup (number task) = l.lookup task := by
  induction l with
  | nil => rfl
  | cons entry l ih =>
    rw [List.map_cons, List.lookup_cons, List.lookup_cons, ih]
    by_cases hk : task = entry.1
    · rw [hk, beq_self_eq_true, beq_self_eq_true]
    · rw [beq_false_of_ne hk, beq_false_of_ne fun h => hk (hn h)]

/-- Taking out the entry of a task does not depend on how tasks are numbered. -/
theorem filter_map_of_injective {α : Type} (hn : Function.Injective number)
    (l : List (TaskId × α)) (task : TaskId) :
    ((l.map fun entry => (number entry.1, entry.2)).filter fun entry => entry.1 ≠ number task) =
      (l.filter fun entry => entry.1 ≠ task).map fun entry => (number entry.1, entry.2) := by
  rw [List.filter_map]
  congr 2
  funext entry
  simp [hn.eq_iff]

/-! ## The same steps

One lemma for each kind of step. What the step looks at is rewritten; the new state is then the old
one with its worker set, which `List.map_set` moves through the renumbering. -/

/-- To begin a fetch needs no token and no number. -/
theorem fetchStep_transport (s : State) (i : Nat) (w : Worker) :
    fetchStep (s.transport number f) i (w.renumber number) =
      (fetchStep s i w).map (State.transport number f) := by
  unfold fetchStep
  have hphase : (w.renumber number).phase = w.phase := rfl
  rw [hphase]
  cases w.phase with
  | waiting =>
    simp only [Option.map_some, State.setWorker, State.transport, List.map_set]
    rfl
  | _ => rfl

/-- The end of a fetch depends on the flags that are seen. -/
theorem finishStep_transport (hview : SameView b s.forest b' f) (i : Nat) (w : Worker)
    (outcome : Outcome) :
    finishStep b' (s.transport number f) i (w.renumber number) outcome =
      (finishStep b s i w outcome).map (State.transport number f) := by
  unfold finishStep
  have hphase : (w.renumber number).phase = w.phase := rfl
  have htag : State.tagRef i (w.renumber number) = State.tagRef i w := rfl
  rw [hphase]
  cases w.phase with
  | fetching since =>
    cases outcome with
    | failed cause =>
      simp only [htag, hview.fetchError]
      simp only [Option.map_some, State.report, State.setWorker, State.transport, List.map_set]
      rfl
    | bytes | crashed =>
      simp only [Option.map_some, State.setWorker, State.transport, List.map_set]
      rfl
  | _ => rfl

/-- The look before the handing over depends on the flag that is seen. -/
theorem offerStep_transport (hview : SameView b s.forest b' f) (i : Nat) (w : Worker) :
    offerStep b' (s.transport number f) i (w.renumber number) =
      (offerStep b s i w).map (State.transport number f) := by
  unfold offerStep
  have hphase : (w.renumber number).phase = w.phase := rfl
  have htag : State.tagRef i (w.renumber number) = State.tagRef i w := rfl
  have hc : (s.transport number f).forest.isCancelled b'.scope.token =
      s.forest.isCancelled b.scope.token := hview.scope
  rw [hphase]
  cases w.phase with
  | fetched data =>
    simp only [hc, htag, hview.cancelReason]
    split
    · simp only [Option.map_some, State.report, State.setWorker, State.transport, List.map_set]
      rfl
    · simp only [Option.map_some, State.setWorker, State.transport, List.map_set]
      rfl
  | _ => rfl

/-- The handing over itself depends on the slot alone. -/
theorem publishStep_transport (s : State) (i : Nat) (w : Worker) :
    publishStep (s.transport number f) i (w.renumber number) =
      (publishStep s i w).map (State.transport number f) := by
  unfold publishStep
  have hphase : (w.renumber number).phase = w.phase := rfl
  have hslot : (s.transport number f).slot = s.slot := rfl
  rw [hphase]
  cases w.phase with
  | offering data =>
    simp only [hslot]
    cases s.slot with
    | some fragment => rfl
    | none =>
      simp only [Option.map_some, State.setWorker, State.transport, List.map_set]
      rfl
  | _ => rfl

/-- A worker is joined by its number, whatever it is. -/
theorem joinStep_transport (hn : Function.Injective number) (s : State) (i : Nat) (w : Worker) :
    joinStep (s.transport number f) i (w.renumber number) =
      (joinStep s i w).map (State.transport number f) := by
  unfold joinStep
  have hguard : ((s.transport number f).alarm.isNone && (w.renumber number).phase.isEnded &&
      !(w.renumber number).isJoined) = (s.alarm.isNone && w.phase.isEnded && !w.isJoined) := rfl
  have hphase : (w.renumber number).phase = w.phase := rfl
  -- the one place where numbers are looked at
  have hlookup : (s.transport number f).tasks.lookup (w.renumber number).task =
      s.tasks.lookup w.task := lookup_map_of_injective hn s.tasks w.task
  have hfilter : ((s.transport number f).tasks.filter fun entry =>
      entry.1 ≠ (w.renumber number).task) =
        (s.tasks.filter fun entry => entry.1 ≠ w.task).map
          fun entry => (number entry.1, entry.2) := filter_map_of_injective hn s.tasks w.task
  have hset : (s.transport number f).setWorker i (Worker.renumber number { w with isJoined := true }) =
      (s.setWorker i { w with isJoined := true }).transport number f := setWorker_transport s i _
  rw [hguard]
  split
  · simp only [hphase, hlookup, hfilter]
    cases hp : w.phase with
    | crashed message =>
      simp only [Option.map_some, State.report, State.setWorker, State.transport, List.map_set]
      rfl
    | _ =>
      rw [hp] at hset
      exact congrArg some hset
  · rfl

/-- The deadline is seen by both or by neither. -/
theorem expireStep_transport (hview : SameView b s.forest b' f) :
    expireStep b' (s.transport number f) = (expireStep b s).map (State.transport number f) := by
  unfold expireStep
  have hguard : ((s.transport number f).alarm.isNone &&
      b'.scope.isOverdue (s.transport number f).now && !(s.transport number f).isExpired &&
        !(s.transport number f).isFinished) =
      (s.alarm.isNone && b.scope.isOverdue s.now && !s.isExpired && !s.isFinished) := by
    rw [isFinished_transport, hview.isOverdue]
    rfl
  rw [hguard]
  split
  · simp only [Option.map_some, State.report, State.transport, List.length_map]
  · rfl

/-- What a worker does in a step is the same for both if it is so for the worker at the index. -/
theorem bind_workers_transport {i : Nat} {act act' : Worker → Option State}
    (h : ∀ w, act' (w.renumber number) = (act w).map (State.transport number f)) :
    (s.transport number f).workers[i]?.bind act' =
      (s.workers[i]?.bind act).map (State.transport number f) := by
  show (s.workers.map (Worker.renumber number))[i]?.bind act' = _
  rw [List.getElem?_map]
  cases s.workers[i]? with
  | none => rfl
  | some w => exact h w

/-- Errors are kept alike. -/
theorem keepStep_transport (s : State) (who : Actor) :
    keepStep (s.transport number f) who = (keepStep s who).map (State.transport number f) := by
  cases who with
  | worker i =>
    refine bind_workers_transport fun w => ?_
    have hphase : (w.renumber number).phase = w.phase := rfl
    rw [hphase]
    cases w.phase with
    | failing cause alarm =>
      cases alarm with
      | keep error =>
        simp only [Option.map_some, State.keep, State.setWorker, State.transport, List.map_set]
        rfl
      | callOff => rfl
    | withdrawing data error =>
      simp only [Option.map_some, State.keep, State.setWorker, State.transport, List.map_set]
      rfl
    | _ => rfl
  | collector =>
    have halarm : (s.transport number f).alarm = s.alarm := rfl
    simp only [keepStep, halarm]
    rcases s.alarm with _ | _ | _ <;> rfl

/-- Calling off the batch is the same step for both, up to what becomes of the tokens. -/
theorem callOffStep_transport (s : State) (who : Actor) :
    callOffStep b' (s.transport number f) who =
      (callOffStep b s who).map (State.transport number (f.cancel b'.scope.token)) := by
  cases who with
  | worker i =>
    have hbind : (s.transport number f).workers[i]? =
        s.workers[i]?.map (Worker.renumber number) := List.getElem?_map
    simp only [callOffStep, hbind]
    cases s.workers[i]? with
    | none => rfl
    | some w =>
      have hphase : (w.renumber number).phase = w.phase := rfl
      simp only [Option.map_some, Option.bind_some, hphase]
      cases w.phase with
      | failing cause alarm =>
        cases alarm with
        | keep error => rfl
        | callOff =>
          simp only [Option.map_some, State.cancel, State.setWorker, State.transport, List.map_set]
          rfl
      | _ => rfl
  | collector =>
    have halarm : (s.transport number f).alarm = s.alarm := rfl
    simp only [callOffStep, halarm]
    rcases s.alarm with _ | _ | _ <;> rfl

/-- The step cancels a token. -/
def Label.isCancelling : Label → Bool
  | cancel _ | callOff _ => true
  | _ => false

/-- **A step that cancels nothing is the same step for a batch that sees the same.** -/
theorem step_transport (hn : Function.Injective number) (hview : SameView b s.forest b' f)
    (hl : label.isCancelling = false) :
    step b' (s.transport number f) label = (step b s label).map (State.transport number f) := by
  cases label with
  | cancel | callOff => cases hl
  | elapse instant =>
    simp only [step]
    show (if s.now ≤ instant then _ else _) = _
    split <;> rfl
  | fetch i => exact bind_workers_transport fun w => fetchStep_transport s i w
  | finish i outcome => exact bind_workers_transport fun w => finishStep_transport hview i w outcome
  | offer i => exact bind_workers_transport fun w => offerStep_transport hview i w
  | publish i => exact bind_workers_transport fun w => publishStep_transport s i w
  | join i => exact bind_workers_transport fun w => joinStep_transport hn s i w
  | collect =>
    have hslot : (s.transport number f).slot = s.slot := rfl
    simp only [step, collectStep, hslot]
    cases s.slot with
    | none => rfl
    | some fragment =>
      show (if s.alarm.isNone then _ else _) = Option.map _ (if _ then _ else _)
      split <;> rfl
  | close =>
    simp only [step, closeStep, allEnded_transport]
    show (if (s.alarm.isNone && s.isOpen && s.slot.isNone && s.allEnded) = true then _ else _) =
      Option.map _ (if _ then _ else _)
    split <;> rfl
  | expire => exact expireStep_transport hview
  | keep who => exact keepStep_transport s who

/-! ## Other numbers

With the tokens left as they are, nothing but the numbers of the tasks changes; so every step can be
taken with other numbers. -/

/-- The batch with other numbers for its tasks. -/
def State.renumber (number : TaskId → TaskId) (s : State) : State :=
  s.transport number s.forest

/-- **A step does not depend on how tasks are numbered.** -/
theorem step_renumber (hn : Function.Injective number) (s : State) (label : Label) :
    step b (s.renumber number) label = (step b s label).map (State.renumber number) := by
  cases hl : label.isCancelling with
  | true =>
    cases label with
    | cancel t => rfl
    | callOff who =>
      have htransport : callOffStep b (s.renumber number) who = (callOffStep b s who).map
          (State.transport number (s.forest.cancel b.scope.token)) := callOffStep_transport s who
      show callOffStep b (s.renumber number) who = (callOffStep b s who).map _
      rw [htransport]
      -- the forest of the next state is the one that the renumbered batch comes to
      have hforest : ∀ s', callOffStep b s who = some s' →
          s'.forest = s.forest.cancel b.scope.token := by
        intro s' h
        cases transition_of_callOffStep h <;> rfl
      cases h : callOffStep b s who with
      | none => rfl
      | some s' => rw [Option.map_some, Option.map_some, State.renumber, hforest s' h]
    | _ => cases hl
  | false =>
    have hview : SameView b s.forest b s.forest := ⟨rfl, rfl, rfl⟩
    rw [State.renumber, step_transport hn hview hl]
    have hforest : ∀ s', step b s label = some s' → s'.forest = s.forest := by
      intro s' h
      cases transition_of_step h with
      | cancel | callOffFailure | callOffAlarm => cases hl
      | _ => rfl
    cases h : step b s label with
    | none => rfl
    | some s' => rw [Option.map_some, Option.map_some, State.renumber, hforest s' h]

/-- **The numbers of the tasks do not matter**, as long as they are distinct. -/
theorem run_renumber (hn : Function.Injective number) (s : State) (labels : List Label) :
    run b (s.renumber number) labels = (run b s labels).map (State.renumber number) := by
  induction labels generalizing s with
  | nil => rfl
  | cons label labels ih =>
    rw [run, run, step_renumber hn]
    cases step b s label with
    | none => rfl
    | some next => exact ih next

end EdgeInclude.Batch
