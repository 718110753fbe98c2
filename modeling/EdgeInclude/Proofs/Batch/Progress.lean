import EdgeInclude.Proofs.Batch.Delivery

/-!
# Batches do not get stuck

A worker can be held up by a full slot, and the collector waits for fragments, for workers and for
the deadline at once. Nevertheless somebody can always go on, and all together they come to an end.

* **`exists_transition_of_not_isFinished`**: in a batch that is not finished a step of the batch can
  be taken. Fetches may be as slow as they like, and end as they like: `Label.KeepsTo` says with
  what.
* **`countP_isInner_add_remaining`**: every step of the batch uses up work, so a run has no more of
  them than there was work at the beginning.
* **`State.exit?`**: the loop of the collector, its guard, and the three things that it waits for.
  **`exit?_ne_noBranch`**: it is never left for want of something to wait for.
-/

namespace EdgeInclude.Batch

open Cancellation

variable {b : Setup} {s₀ s s' : State} {label : Label} {labels : List Label} {tags : List Include}
variable {i : Nat} {w : Worker} {ends : Nat → Outcome}

/-! ## Somebody can go on

A worker waits for a free slot, the collector for a full one or for an ended worker. Not all of them
can be waiting. -/

/-- If the step ends a fetch, then as it is laid down for that fetch. -/
def Label.KeepsTo (ends : Nat → Outcome) : Label → Prop
  | finish i outcome => outcome = ends i
  | _ => True

/-- The step is one of the batch, and ends fetches as laid down. -/
structure Label.IsProgress (ends : Nat → Outcome) (label : Label) : Prop where
  isInner : label.isInner = true
  keepsTo : label.KeepsTo ends

/-- A worker that has not ended goes on when the slot is free. -/
theorem exists_worker_transition (ends : Nat → Outcome) (hw : s.workers[i]? = some w)
    (he : w.phase.isEnded = false) (hslot : s.slot = none) :
    ∃ label s', Transition b s label s' ∧ label.IsProgress ends := by
  cases hp : w.phase with
  | waiting => exact ⟨_, _, .fetch hw hp, rfl, trivial⟩
  | fetching since =>
    -- the fetch is still under way: it counts as able to end
    obtain ⟨s', h⟩ := exists_finish_transition (b := b) hw hp (ends i)
    exact ⟨_, _, h, rfl, rfl⟩
  | fetched data =>
    cases hc : s.forest.isCancelled b.scope.token with
    | true => exact ⟨_, _, .withdraw hw hp hc, rfl, trivial⟩
    | false => exact ⟨_, _, .offer hw hp hc, rfl, trivial⟩
  | offering data => exact ⟨_, _, .publish hw hp hslot, rfl, trivial⟩
  | failing cause alarm =>
    cases alarm with
    | keep error => exact ⟨_, _, .keepFailure hw hp, rfl, trivial⟩
    | callOff => exact ⟨_, _, .callOffFailure hw hp, rfl, trivial⟩
  | withdrawing data error => exact ⟨_, _, .keepWithdrawal hw hp, rfl, trivial⟩
  | published | failed | unpublished | crashed => rw [hp] at he; cases he

/-- When all workers have ended, what is left is for the collector to do. -/
theorem exists_collector_transition (ends : Nat → Outcome) (ha : s.alarm = none)
    (hslot : s.slot = none) (he : s.allEnded = true) (hfin : s.isFinished = false) :
    ∃ label s', Transition b s label s' ∧ label.IsProgress ends := by
  cases hopen : s.isOpen with
  | true => exact ⟨_, _, .close ha hopen hslot he, rfl, trivial⟩
  | false =>
    -- the channel is closed already, so some worker has still to be joined
    have hjoined : ¬ ∀ w ∈ s.workers, w.isJoined = true := by
      intro hall
      rw [isFinished_iff.mpr ⟨hopen, hall, ha⟩] at hfin
      cases hfin
    push Not at hjoined
    obtain ⟨w, hmem, hj⟩ := hjoined
    obtain ⟨i, hw⟩ := List.mem_iff_getElem?.mp hmem
    obtain ⟨s', h⟩ := exists_join_transition (b := b) hw ha (allEnded_iff.mp he i w hw)
      (Bool.eq_false_iff.mpr hj)
    exact ⟨_, _, h, rfl, trivial⟩

/-- **Somebody can go on**, whatever the fetches that are under way will end with. -/
theorem exists_transition_of_not_isFinished (b : Setup) (ends : Nat → Outcome)
    (hfin : s.isFinished = false) : ∃ label s', Transition b s label s' ∧ label.IsProgress ends := by
  cases ha : s.alarm with
  | some alarm =>
    cases alarm with
    | keep error => exact ⟨_, _, .keepAlarm ha, rfl, trivial⟩
    | callOff => exact ⟨_, _, .callOffAlarm ha, rfl, trivial⟩
  | none =>
    cases hslot : s.slot with
    | some fragment => exact ⟨_, _, .collect hslot ha, rfl, trivial⟩
    | none =>
      by_cases he : s.allEnded = true
      · exact exists_collector_transition ends ha hslot he hfin
      · -- a free slot holds nobody up
        rw [allEnded_iff] at he
        push Not at he
        obtain ⟨i, w, hw, hended⟩ := he
        exact exists_worker_transition ends hw (Bool.eq_false_iff.mpr hended) hslot

/-! ## All come to an end

Every step of the batch leaves less to do, and whatever others do leaves as much. -/

/-- A step of others leaves as much to do. -/
theorem remaining_eq_of_transition (h : Transition b s label s') (hl : label.isInner = false) :
    s'.remaining = s.remaining := by
  cases h with
  | elapse | cancel => rfl
  | _ => cases hl

theorem joinedEnded_of_run (hj : s₀.JoinedEnded) (hrun : run b s₀ labels = some s) :
    s.JoinedEnded :=
  run_induction hj (fun _ _ _ _ _ hj h => joinedEnded_transition hj h) hrun

/-- **A run has no more steps of the batch than there was work at its beginning.** -/
theorem countP_isInner_add_remaining (hj : s₀.JoinedEnded) (hrun : run b s₀ labels = some s) :
    labels.countP Label.isInner + s.remaining ≤ s₀.remaining := by
  refine run_induction
    (motive := fun labels s => labels.countP Label.isInner + s.remaining ≤ s₀.remaining)
    (by simp) (fun labels s label s' hrun ih h => ?_) hrun
  rw [List.countP_append, List.countP_singleton]
  cases hl : label.isInner with
  | true =>
    have hlt := remaining_lt_of_transition (joinedEnded_of_run hj hrun) h hl
    simp only [if_true]
    omega
  | false =>
    have heq := remaining_eq_of_transition h hl
    simp only [Bool.false_eq_true, if_false]
    omega

/-- Whoever goes on as long as possible finishes the batch. -/
theorem exists_run_isFinished (b : Setup) (ends : Nat → Outcome) (hj : s.JoinedEnded) :
    ∃ rest s', (∀ label ∈ rest, label.IsProgress ends) ∧ run b s rest = some s' ∧
      s'.isFinished = true := by
  -- the induction is on the work that is left
  induction hn : s.remaining using Nat.strongRecOn generalizing s with
  | ind n ih =>
    cases hfin : s.isFinished with
    | true => exact ⟨[], s, by simp, rfl, hfin⟩
    | false =>
      obtain ⟨label, next, h, hl⟩ := exists_transition_of_not_isFinished b ends hfin
      have hlt := remaining_lt_of_transition hj h hl.isInner
      obtain ⟨rest, s', hrest, hrun, hend⟩ :=
        ih next.remaining (by omega) (joinedEnded_transition hj h) rfl
      refine ⟨label :: rest, s', ?_, ?_, hend⟩
      · intro l hmem
        rcases List.mem_cons.mp hmem with rfl | hmem
        · exact hl
        · exact hrest l hmem
      · rw [run, step_eq_some_iff.mpr h]
        exact hrun

/-- How much there is to do at first. -/
theorem remaining_beginning (r : Resolver) (scope : Scope) (t : Timeline) :
    (beginning r tags scope t).remaining = 7 * tags.length + 4 := by
  have htotal (l : List Worker) (hl : ∀ w ∈ l, w.remaining = 7) :
      total Worker.remaining l = 7 * l.length := by
    induction l with
    | nil => rfl
    | cons w l ih =>
      rw [total_cons, hl w List.mem_cons_self, ih fun v hv => hl v (List.mem_cons_of_mem _ hv),
        List.length_cons]
      omega
  have hworkers : total Worker.remaining (beginning r tags scope t).workers = 7 * tags.length := by
    rw [htotal]
    · show 7 * (tags.mapIdx r.worker).length = _
      rw [List.length_mapIdx]
    · intro w hmem
      obtain ⟨i, hw⟩ := List.mem_iff_getElem?.mp hmem
      obtain ⟨tag, -, rfl⟩ := getElem?_beginning hw
      rfl
  rw [remaining_eq, hworkers]
  rfl

/-! ## The loop of the collector

At the head of its loop the collector waits for three things at once, each as long as a guard holds.
It goes round again as long as the channel is open or a worker is not joined. -/

/-- What the collector waits for. -/
inductive Branch where
  /-- Something out of the channel: a fragment, or that it is closed. -/
  | receive
  /-- The end of a worker. -/
  | join
  /-- The deadline. -/
  | deadline
deriving DecidableEq

/-- How the collector can leave its loop. -/
inductive Exit where
  /-- The condition of the loop no longer holds. -/
  | condition
  /-- There is nothing left to wait for. -/
  | noBranch
deriving DecidableEq

/-- The workers that the collector has still to join. -/
def State.unjoined (s : State) : List Worker :=
  s.workers.filter fun w => !w.isJoined

/-- The condition of the loop. -/
def State.goesOn (s : State) : Bool :=
  s.isOpen || !s.unjoined.isEmpty

/-- The collector waits for this. It waits for workers while there are any: only when there are none
does the set of workers answer that there is none. -/
def Branch.isArmed (s : State) : Branch → Bool
  | receive => s.isOpen
  | join => !s.unjoined.isEmpty
  | deadline => !s.isExpired

/-- What the collector has waited for when it takes a step. -/
def Label.branch? : Label → Option Branch
  | collect | close => some .receive
  | join _ => some .join
  | expire => some .deadline
  | _ => none

/-- How the collector leaves its loop, if it does so now. It does not while it sees to an error. -/
def State.exit? (s : State) : Option Exit :=
  if s.alarm.isSome then none
  else if !s.goesOn then some .condition
  else if [Branch.receive, .join, .deadline].any (Branch.isArmed s) then none
  else some .noBranch

theorem goesOn_eq_false_iff :
    s.goesOn = false ↔ s.isOpen = false ∧ ∀ w ∈ s.workers, w.isJoined = true := by
  simp [State.goesOn, State.unjoined, List.isEmpty_iff]

/-- While the loop goes on there is something to wait for. -/
theorem exit?_ne_noBranch (s : State) : s.exit? ≠ some .noBranch := by
  unfold State.exit?
  split
  · nofun
  · split
    · nofun
    · rename_i hgoes
      -- one half of the condition arms the one branch, and one the other
      have harmed : [Branch.receive, .join, .deadline].any (Branch.isArmed s) = true := by
        simp only [State.goesOn, Bool.not_eq_true, Bool.not_eq_false', Bool.or_eq_true] at hgoes
        rcases hgoes with hopen | hjoin
        · simp [Branch.isArmed, hopen]
        · simp [Branch.isArmed, hjoin]
      rw [if_pos harmed]
      nofun

/-- The loop is left exactly when the batch is finished. -/
theorem exit?_eq_condition_iff : s.exit? = some .condition ↔ s.isFinished = true := by
  rw [isFinished_iff]
  unfold State.exit?
  cases ha : s.alarm with
  | some alarm => simp
  | none =>
    cases hgoes : s.goesOn with
    | true =>
      have hnot : ¬ (s.isOpen = false ∧ ∀ w ∈ s.workers, w.isJoined = true) := by
        rw [← goesOn_eq_false_iff, hgoes]
        nofun
      simp only [Option.isSome_none, Bool.false_eq_true, if_false, Bool.not_true, and_true]
      constructor
      · split <;> nofun
      · intro hclosed
        exact absurd hclosed hnot
    | false =>
      obtain ⟨hopen, hjoined⟩ := goesOn_eq_false_iff.mp hgoes
      simp only [Option.isSome_none, Bool.false_eq_true, if_false, Bool.not_false, if_true, true_iff]
      exact ⟨hopen, hjoined, trivial⟩

/-- A step of the collector is one that it has waited for, inside its loop. -/
theorem isArmed_of_transition {branch : Branch} (hc : Channel s) (h : Transition b s label s')
    (hbranch : label.branch? = some branch) :
    s.goesOn = true ∧ branch.isArmed s = true := by
  cases h with
  | collect hslot =>
    cases hbranch
    -- behind a closed channel the slot is empty
    have hopen : s.isOpen = true := by
      cases hopen : s.isOpen with
      | true => rfl
      | false => rw [(hc.closed hopen).1] at hslot; cases hslot
    simp [State.goesOn, Branch.isArmed, hopen]
  | close ha hopen =>
    cases hbranch
    simp [State.goesOn, Branch.isArmed, hopen]
  | join hw _ _ _ hj | joinCrashed hw _ _ hj =>
    cases hbranch
    have hmem := List.mem_of_getElem? hw
    have hunjoined : s.unjoined.isEmpty = false := by
      rw [← Bool.not_eq_true, List.isEmpty_iff, State.unjoined, List.filter_eq_nil_iff]
      intro hall
      exact hall _ hmem (by rw [hj]; rfl)
    simp [State.goesOn, Branch.isArmed, hunjoined]
  | expire ha _ hx hfin =>
    cases hbranch
    have hgoes : s.goesOn = true := by
      cases hgoes : s.goesOn with
      | true => rfl
      | false =>
        obtain ⟨hopen, hjoined⟩ := goesOn_eq_false_iff.mp hgoes
        rw [isFinished_iff.mpr ⟨hopen, hjoined, ha⟩] at hfin
        cases hfin
    exact ⟨hgoes, by rw [Branch.isArmed, hx]; rfl⟩
  | _ => cases hbranch

/-! ## The whole batch

Any run can be gone on with until the batch is finished, and in no more steps than there were at
first. -/

/-- **A batch does not get stuck.** In every state of every run: as long as the batch is not
finished, a step of a worker or of the collector can be taken, and from there on the batch can be
finished, whatever the fetches end with. Each such step lowers the work that is left, so that a run
has at most `7 * n + 4` of them for `n` tags. The collector leaves its loop by the condition of the
loop alone, when the channel is drained and closed and every worker has ended and is joined; until
then it is never without something to wait for. -/
theorem batch_does_not_get_stuck {r : Resolver} {scope : Scope} {t : Timeline}
    (hstart : r.start tags scope t = some (b, s₀)) (hrun : run b s₀ labels = some s) :
    (s.isFinished = false → ∀ ends : Nat → Outcome,
      ∃ label s', step b s label = some s' ∧ label.IsProgress ends) ∧
    (∀ ends : Nat → Outcome, ∃ rest s', (∀ label ∈ rest, label.IsProgress ends) ∧
      run b s rest = some s' ∧ s'.isFinished = true) ∧
    (∀ label s', step b s label = some s' → label.isInner = true → s'.remaining < s.remaining) ∧
    labels.countP Label.isInner + s.remaining ≤ 7 * tags.length + 4 ∧
    s.exit? ≠ some .noBranch ∧
    (s.exit? = some .condition ↔ s.isFinished = true) ∧
    (s.isFinished = true → s.isOpen = false ∧ s.slot = none ∧
      ∀ w ∈ s.workers, w.phase.isEnded = true ∧ w.isJoined = true) ∧
    ∀ label s' branch, step b s label = some s' → label.branch? = some branch →
      s.goesOn = true ∧ branch.isArmed s = true := by
  have hb := bookkeeping_of_run hstart hrun
  have hj := hb.channel.joined
  have hcount : labels.countP Label.isInner + s.remaining ≤ 7 * tags.length + 4 := by
    -- a run without steps has the state at the beginning for its end
    have hnothing : run b s₀ [] = some s₀ := rfl
    have hj₀ := (bookkeeping_of_run hstart hnothing).channel.joined
    obtain ⟨deadline, -, -, rfl⟩ := start_eq_some_iff.mp hstart
    rw [← remaining_beginning r scope t]
    exact countP_isInner_add_remaining hj₀ hrun
  refine ⟨fun hfin ends => ?_, fun ends => exists_run_isFinished b ends hj,
    fun label s' h hl => remaining_lt_of_transition hj (transition_of_step h) hl, hcount,
    exit?_ne_noBranch s, exit?_eq_condition_iff, fun hfin => ?_,
    fun label s' branch h hbranch => isArmed_of_transition hb.channel (transition_of_step h) hbranch⟩
  · obtain ⟨label, s', h, hl⟩ := exists_transition_of_not_isFinished b ends hfin
    exact ⟨label, s', step_eq_some_iff.mpr h, hl⟩
  · obtain ⟨hopen, hjoined, -⟩ := isFinished_iff.mp hfin
    obtain ⟨hslot, hended⟩ := hb.channel.closed hopen
    exact ⟨hopen, hslot, fun w hmem => ⟨List.all_eq_true.mp hended w hmem, hjoined w hmem⟩⟩

/-- The first worker is held up: the fragment of the second is in the slot, and nobody has taken it
out yet. -/
def heldUp : List Label :=
  [.fetch 0, .fetch 1, .finish 1 (.bytes [2]), .offer 1, .publish 1, .finish 0 (.bytes [1]), .offer 0,
    .join 1]

/-- A worker is held up by a full slot and goes on when the collector has taken what is in it. -/
theorem batch_does_not_get_stuck_heldUp :
    ∃ s, Resolver.start {} twoTags loneScope loneTimeline =
        some (loneSetup, beginning {} twoTags loneScope loneTimeline) ∧
      run loneSetup (beginning {} twoTags loneScope loneTimeline) heldUp = some s ∧
      step loneSetup s (.publish 0) = none ∧ s.isFinished = false ∧
      (∃ label s', step loneSetup s label = some s' ∧ label.IsProgress fun _ => .bytes []) ∧
      heldUp.countP Label.isInner + s.remaining ≤ 18 := by
  have hstart : Resolver.start {} twoTags loneScope loneTimeline =
      some (loneSetup, beginning {} twoTags loneScope loneTimeline) := by rfl
  obtain ⟨s, hrun, hstuck, hfin⟩ :
      ∃ s, run loneSetup (beginning {} twoTags loneScope loneTimeline) heldUp = some s ∧
        step loneSetup s (.publish 0) = none ∧ s.isFinished = false := ⟨_, by rfl, by rfl, by rfl⟩
  obtain ⟨hprogress, -, -, hcount, -⟩ := batch_does_not_get_stuck hstart hrun
  exact ⟨s, hstart, hrun, hstuck, hfin, hprogress hfin _, hcount⟩

end EdgeInclude.Batch
