import EdgeInclude.Proofs.Batch.Likeness
import EdgeInclude.Proofs.Batch.Nesting
import EdgeInclude.Proofs.Cancellation.Ancestry

/-!
# The courses that a call can take

One who stands by sees the steps of a batch and two flags: that of the request and that of the batch
itself. Which tokens there are besides, and which of them were cancelled before, is not seen.

* **`Course`**, **`CanTake`**: what is seen of a call that ends.
* **`Secluded`**: nothing hangs below a batch, so that calling it off changes one flag.
* **`exists_run_alike`**: what is seen of one batch can be seen of every other that begins alike.
* **`canTake_iff`**: the courses that a call can take depend on the page, on the clock, and on the flag
  and the deadline of the request.
-/

namespace EdgeInclude.Batch

open Cancellation Forest

variable {b b' : Setup} {s₀ s s' : State} {label : Label} {labels : List Label} {f f' : Forest}
variable {tags : List Include} {r : Resolver} {scope scope' : Scope} {t t' : Timeline}

/-- What is seen of a step: which one it was, unless it was a cancellation by others, and the flags
after it. -/
structure Sight where
  label : Option Label
  request : Bool
  scope : Bool
deriving DecidableEq

/-- Whose token others cancel is not seen. -/
def Label.seen? : Label → Option Label
  | cancel _ => none
  | label => some label

/-- What is seen of a step that leads to a state. -/
def sight (b : Setup) (label : Label) (s : State) : Sight :=
  ⟨label.seen?, s.forest.isCancelled b.requestToken, s.forest.isCancelled b.scope.token⟩

/-- What is seen of a run. -/
def sights (b : Setup) (s : State) : List Label → List Sight
  | [] => []
  | label :: labels =>
    match step b s label with
    | none => []
    | some s' => sight b label s' :: sights b s' labels

/-- What is seen of a call, and how it went. -/
structure Course where
  seen : List Sight
  result : Except BatchError (List Fragment)
  reports : List Report
  calls : List Call
  ending : Instant

/-- The course of a call that began at an instant with one state and ended with another. -/
def Course.of (b : Setup) (start : Instant) (s₀ : State) (labels : List Label) (s : State) : Course :=
  let res := Resolver.conclude b start s none
  { seen := sights b s₀ labels, result := res.result, reports := res.reports, calls := res.calls,
    ending := res.timeline.now }

/-- A call of the resolver can end after that course. -/
def CanTake (r : Resolver) (tags : List Include) (scope : Scope) (t : Timeline) (c : Course) : Prop :=
  ∃ b s₀ labels s, r.start tags scope t = some (b, s₀) ∧ run b s₀ labels = some s ∧
    s.isFinished = true ∧ c = .of b t.now s₀ labels s

/-! ## Secluded batches

Nobody else has a link to the token of a batch, so nothing but the batch and its request cancel it.
-/

/-- The batch hangs below its request alone, and nothing hangs below the batch. -/
structure Secluded (b : Setup) (f : Forest) : Prop extends Nested b f where
  childless : f.childrenOf b.scope.token = []

/-- A new batch is secluded. -/
theorem secluded_beginning (hf : t.forest.WellFormed) (hr : scope.token < t.forest.nodes.length)
    (hstart : r.start tags scope t = some (b, s₀)) : Secluded b s₀.forest where
  toNested := nested_beginning hf hr hstart
  childless := by
    obtain ⟨deadline, -, rfl, rfl⟩ := start_eq_some_iff.mp hstart
    refine List.eq_nil_iff_forall_not_mem.mpr fun c hc => ?_
    rcases mem_childrenOf_child hf hc with hc | ⟨-, heq⟩
    · rw [childrenOf_of_length_le (Nat.le_refl _)] at hc
      cases hc
    · exact Nat.ne_of_gt hr heq

/-- A secluded batch stays so, whatever is cancelled. -/
theorem Secluded.cancel (h : Secluded b f) (v : Token) : Secluded b (f.cancel v) where
  toNested := h.toNested.cancel v
  childless := by
    by_cases hreaches : Reaches f v b.scope.token
    · exact childrenOf_cancel_of_reaches h.wellFormed.unlocked hreaches
    · rw [childrenOf_cancel h.wellFormed.unlocked hreaches]
      exact h.childless

/-- **Calling off the batch leaves the request alone.** -/
theorem Secluded.isCancelled_request (h : Secluded b f) :
    (f.cancel b.scope.token).isCancelled b.requestToken = f.isCancelled b.requestToken := by
  rw [Bool.eq_iff_iff, isCancelled_cancel_iff h.wellFormed.unlocked]
  refine ⟨fun hup => hup.resolve_right fun hreaches => ?_, .inl⟩
  exact h.ne (hreaches.eq_of_childrenOf h.childless).symm

/-- The token of the request is there: it is cancelled, or has a link. -/
theorem Nested.request_lt_length (h : Nested b f) : b.requestToken < f.nodes.length := by
  cases hup : f.isCancelled b.requestToken with
  | true => exact lt_length_of_isCancelled hup
  | false =>
    by_contra hge
    have hlink := h.linked hup
    rw [childrenOf_of_length_le (Nat.not_lt.mp hge)] at hlink
    cases hlink

/-! ## The same seen of another batch

A step of one batch is a step of the other, with a cancellation that others make changed for one
that does the same to the flags. -/

/-- Whatever others cancel, what it does to one batch can be done to the other: it reaches the request,
and then the batch too, or the batch alone, or neither. -/
theorem SameView.exists_cancel (hview : SameView b f b' f') (h : Secluded b f) (h' : Secluded b' f')
    (v : Token) : ∃ v', SameView b (f.cancel v) b' (f'.cancel v') := by
  have hkept {u : Token} (hup : f.isCancelled u = true) : (f.cancel v).isCancelled u = true :=
    isCancelled_cancel_of h.wellFormed.unlocked hup
  by_cases hrequest : (f.cancel v).isCancelled b.requestToken = f.isCancelled b.requestToken
  · by_cases hscope : (f.cancel v).isCancelled b.scope.token = f.isCancelled b.scope.token
    · refine ⟨f'.nodes.length, hview.deadline, ?_, ?_⟩
      · rw [cancel_of_length_le (Nat.le_refl _), hrequest, hview.request]
      · rw [cancel_of_length_le (Nat.le_refl _), hscope, hview.scope]
    · have hup : (f.cancel v).isCancelled b.scope.token = true := by
        cases hdown : f.isCancelled b.scope.token with
        | true => exact hkept hdown
        | false => rwa [hdown, Bool.not_eq_false] at hscope
      refine ⟨b'.scope.token, hview.deadline, ?_, ?_⟩
      · rw [h'.isCancelled_request, hview.request, hrequest]
      · rw [h'.isCancelled_cancel, hup]
  · have hup : (f.cancel v).isCancelled b.requestToken = true := by
      cases hdown : f.isCancelled b.requestToken with
      | true => exact hkept hdown
      | false => rwa [hdown, Bool.not_eq_false] at hrequest
    have hup' := isCancelled_cancel_self h'.wellFormed h'.request_lt_length
    refine ⟨b'.requestToken, hview.deadline, ?_, ?_⟩
    · rw [hup', hup]
    · rw [(h'.cancel b'.requestToken).cancelled hup', (h.cancel v).cancelled hup]

/-- Calling off shows the same for both. -/
theorem SameView.cancel_scope (hview : SameView b f b' f') (h : Secluded b f)
    (h' : Secluded b' f') : SameView b (f.cancel b.scope.token) b' (f'.cancel b'.scope.token) where
  deadline := hview.deadline
  request := by rw [h'.isCancelled_request, h.isCancelled_request, hview.request]
  scope := by rw [h'.isCancelled_cancel, h.isCancelled_cancel]

/-- Two batches with the same flags are seen alike. -/
theorem sight_transport {number : TaskId → TaskId} (hview : SameView b s.forest b' f)
    {label' : Label} (hlabel : label'.seen? = label.seen?) :
    sight b' label' (s.transport number f) = sight b label s := by
  unfold sight
  rw [hlabel]
  show Sight.mk _ (f.isCancelled b'.requestToken) (f.isCancelled b'.scope.token) = _
  rw [hview.request, hview.scope]

/-- A batch stays secluded. -/
theorem secluded_transition (h : Secluded b s.forest) (ht : Transition b s label s') :
    Secluded b s'.forest := by
  rcases forest_transition ht with heq | ⟨v, heq, -⟩
  · rw [heq]
    exact h
  · rw [heq]
    exact h.cancel v

/-- **One step, seen of both.** -/
theorem exists_step_alike (hview : SameView b s.forest b' f) (h : Secluded b s.forest)
    (h' : Secluded b' f) (hstep : step b s label = some s') :
    ∃ label' f', step b' (s.transport id f) label' = some (s'.transport id f') ∧
      label'.seen? = label.seen? ∧ Secluded b' f' ∧ SameView b s'.forest b' f' := by
  -- steps that cancel nothing are the same steps; the others change both forests
  cases hl : label.isCancelling with
  | false =>
    have hforest : s'.forest = s.forest := by
      cases transition_of_step hstep with
      | cancel | callOffFailure | callOffAlarm => cases hl
      | _ => rfl
    refine ⟨label, f, ?_, rfl, h', by rwa [hforest]⟩
    rw [step_transport Function.injective_id hview hl, hstep, Option.map_some]
  | true =>
    cases label with
    | cancel v =>
      cases hstep
      obtain ⟨v', hview'⟩ := hview.exists_cancel h h' v
      exact ⟨.cancel v', f.cancel v', rfl, rfl, h'.cancel v', hview'⟩
    | callOff who =>
      have hforest : s'.forest = s.forest.cancel b.scope.token := by
        cases transition_of_callOffStep hstep <;> rfl
      refine ⟨.callOff who, f.cancel b'.scope.token, ?_, rfl, h'.cancel _, ?_⟩
      · show callOffStep b' (s.transport id f) who = _
        have hcall : callOffStep b s who = some s' := hstep
        rw [callOffStep_transport, hcall, Option.map_some]
      · rw [hforest]
        exact hview.cancel_scope h h'
    | _ => cases hl

/-- **A run of one batch can be seen of the other**, and ends in the same state but for the tokens. -/
theorem exists_run_alike (hview : SameView b s₀.forest b' f) (h : Secluded b s₀.forest)
    (h' : Secluded b' f) (hrun : run b s₀ labels = some s) :
    ∃ labels' f', run b' (s₀.transport id f) labels' = some (s.transport id f') ∧
      sights b' (s₀.transport id f) labels' = sights b s₀ labels := by
  induction labels generalizing s₀ f with
  | nil =>
    cases hrun
    exact ⟨[], f, rfl, rfl⟩
  | cons label labels ih =>
    obtain ⟨s₁, hstep, hrun⟩ := Option.bind_eq_some_iff.mp hrun
    obtain ⟨label', f₁, hstep', hlabel, h₁', hview₁⟩ := exists_step_alike hview h h' hstep
    have h₁ := secluded_transition h (transition_of_step hstep)
    obtain ⟨labels', f', hrun', hsights⟩ := ih hview₁ h₁ h₁' hrun
    refine ⟨label' :: labels', f', ?_, ?_⟩
    · rw [run, hstep']
      exact hrun'
    · rw [sights, hstep', sights, hstep]
      simp only [sight_transport hview₁ hlabel, hsights]

/-! ## Courses

Step by step, a run of one batch gives a run of the other that is seen alike. -/

theorem deadlineWithin?_congr (hdeadline : scope'.deadline = scope.deadline) (now : Instant)
    (limit : Option Duration) : scope'.deadlineWithin? now limit = scope.deadlineWithin? now limit := by
  unfold Scope.deadlineWithin?
  rw [hdeadline]

/-- Two calls at the same instant begin alike but for their tokens. -/
theorem beginning_alike (hnow : t'.now = t.now) :
    beginning r tags scope' t' =
      (beginning r tags scope t).transport id (t'.forest.child scope'.token).2 := by
  have hworkers : (tags.mapIdx r.worker).map (Worker.renumber id) = tags.mapIdx r.worker :=
    List.map_id' _
  have htasks (l : List (TaskId × TagRef)) : l.map (fun entry => (id entry.1, entry.2)) = l :=
    List.map_id' _
  simp only [beginning, State.transport, hnow, hworkers, htasks]

/-- What the call ends with does not depend on the tokens. -/
theorem Course.of_transport {s₀' : State} {labels' : List Label} {number : TaskId → TaskId}
    (hsights : sights b' s₀' labels' = sights b s₀ labels) (start : Instant) :
    Course.of b' start s₀' labels' (s.transport number f) = Course.of b start s₀ labels s := by
  have hlast (elapsed : Duration) : Resolver.lastReport (s.transport number f) elapsed =
      Resolver.lastReport s elapsed := by
    have hlength : (s.transport number f).workers.length = s.workers.length := List.length_map _
    unfold Resolver.lastReport
    rw [hlength]
    rfl
  simp only [Course.of, Resolver.conclude, hsights, hlast]
  rfl

/-- What one call can come to, so can the other. -/
theorem canTake_of_alike {c : Course} (hf : t.forest.WellFormed) (hf' : t'.forest.WellFormed)
    (hr : scope.token < t.forest.nodes.length) (hr' : scope'.token < t'.forest.nodes.length)
    (hnow : t'.now = t.now) (hdeadline : scope'.deadline = scope.deadline)
    (hflag : t'.forest.isCancelled scope'.token = t.forest.isCancelled scope.token)
    (hc : CanTake r tags scope t c) : CanTake r tags scope' t' c := by
  obtain ⟨b, s₀, labels, s, hstart, hrun, hfin, rfl⟩ := hc
  have hsecluded := secluded_beginning hf hr hstart
  obtain ⟨deadline, hwithin, rfl, rfl⟩ := start_eq_some_iff.mp hstart
  have hstart' : r.start tags scope' t' = some
      ({ requestToken := scope'.token
         scope := { scope' with token := t'.forest.nodes.length, deadline } },
        (beginning r tags scope t).transport id (t'.forest.child scope'.token).2) := by
    refine start_eq_some_iff.mpr ⟨deadline, ?_, rfl, (beginning_alike hnow).symm⟩
    rw [hnow, deadlineWithin?_congr hdeadline, hwithin]
  have hsecluded' := secluded_beginning hf' hr' hstart'
  -- both flags of a new batch are that of its request
  have hview : SameView
      { requestToken := scope.token
        scope := { scope with token := t.forest.nodes.length, deadline } }
      (t.forest.child scope.token).2
      { requestToken := scope'.token
        scope := { scope' with token := t'.forest.nodes.length, deadline } }
      (t'.forest.child scope'.token).2 := by
    refine ⟨rfl, ?_, ?_⟩
    · simp only [isCancelled_child hf, isCancelled_child hf', if_neg (Nat.ne_of_lt hr),
        if_neg (Nat.ne_of_lt hr'), hflag]
    · simp only [isCancelled_child hf, isCancelled_child hf', if_true, hflag]
  obtain ⟨labels', f', hrun', hsights⟩ := exists_run_alike hview hsecluded hsecluded' hrun
  refine ⟨_, _, labels', _, hstart', hrun', ?_, ?_⟩
  · rw [isFinished_transport]
    exact hfin
  · rw [hnow]
    exact (Course.of_transport hsights t.now).symm

/-- **The courses that a call can take** depend on the page, on the instant, and on the flag and the
deadline of the request, and on nothing else that there is. -/
theorem canTake_iff (hf : t.forest.WellFormed) (hf' : t'.forest.WellFormed)
    (hr : scope.token < t.forest.nodes.length) (hr' : scope'.token < t'.forest.nodes.length)
    (hnow : t'.now = t.now) (hdeadline : scope'.deadline = scope.deadline)
    (hflag : t'.forest.isCancelled scope'.token = t.forest.isCancelled scope.token) (c : Course) :
    CanTake r tags scope t c ↔ CanTake r tags scope' t' c :=
  ⟨canTake_of_alike hf hf' hr hr' hnow hdeadline hflag,
    canTake_of_alike hf' hf hr' hr hnow.symm hdeadline.symm hflag.symm⟩

end EdgeInclude.Batch
