import EdgeInclude.Proofs.Batch.Courses
import EdgeInclude.Proofs.Batch.Delivery
import EdgeInclude.Proofs.Batch.FinishingTime
import EdgeInclude.Proofs.Cancellation.Custody

/-!
# Batches keep to themselves

A batch cancels its own token and no other, and that token is new and has no links. So a call of a
resolver leaves the flags of all other tokens to those outside, whose cancellations reach what they
would have reached without it. Hence what a call finds does not tell how the calls before it ended.

What others reach is told by two relations. A cancellation gets from parent to child through tokens
that something still holds, and stops at one that is gone; so it raises no flag but those of its own
token and of what descends from it, and not always all of those.

* **`cancelledBy`**: the tokens that others cancel during a run.
* **`Calls`**: calls of a resolver for one page and one request, and what happens between them.
  **`calls_of_resolveTimes`**: calls that follow each other at once are among them.
* **`LeftToOthers`**: the flags are what others made of them. **`leftToOthers_of_follows`**: so
  they are where newer tokens have come and gone.
* **`follows_of_calls`**, **`kindred_of_calls`**: what has become of the tokens of before is what others
  have made of them, and who was made as a child of whom.
* **`batch_does_not_leak`**: one more call after any number of them, and the courses that it can take.
* **`cancellation_misses_orphaned_request`**: a request whose parent is gone does not hear of the
  cancellation of an ancestor.
-/

namespace EdgeInclude.Batch

open Cancellation Forest

variable {b : Setup} {s₀ s s' : State} {label : Label} {labels : List Label} {f : Forest}
variable {tags : List Include} {r : Resolver} {scope : Scope} {t t₁ : Timeline} {v : Token}
variable {outside : List Token} {kin made : List (Token × Token)}

/-- The token that others cancel by a step. -/
def Label.cancels? : Label → Option Token
  | cancel v => some v
  | _ => none

/-- The tokens that others cancel during a run, one after the other. -/
def cancelledBy (labels : List Label) : List Token :=
  labels.filterMap Label.cancels?

theorem cancelledBy_concat (labels : List Label) (label : Label) :
    cancelledBy (labels ++ [label]) = cancelledBy labels ++ label.cancels?.toList := by
  rw [cancelledBy, cancelledBy, List.filterMap_append]
  cases label <;> rfl

/-! ## What others reach

Everything is measured by the tokens that others cancelled, one after the other, and by who was made as
a child of whom. Both relations between tokens are needed: the flags that are up need an ancestor that
was cancelled, and an ancestor that was cancelled needs a line of held tokens to be heard. -/

/-- What became of the tokens of a forest is what others made of them. A flag is up exactly if it was up
at first or others cancelled a token from which links lead to it through tokens that are held. So others
cancelled that token itself or an ancestor of it; and all that stand in line below a token that they
cancelled, each of them held, are cancelled. -/
structure LeftToOthers (f : Forest) (kin : List (Token × Token)) (outside : List Token)
    (g : Forest) : Prop where
  isCancelled_iff : ∀ u < f.nodes.length, g.isCancelled u = true ↔
    f.isCancelled u = true ∨ ∃ v ∈ outside, f.IsAbove v u
  descends : ∀ u < f.nodes.length, g.isCancelled u = true →
    f.isCancelled u = true ∨ ∃ v ∈ outside, u = v ∨ Descends kin v u
  line : ∀ v ∈ outside, ∀ u, Line kin (f.isHeld · = true) v u → g.isCancelled u = true

/-- Newer tokens that have come and gone have no part in it. -/
theorem leftToOthers_of_follows {g : Forest} (hf : f.Kindred kin) (h : Follows f outside g) :
    LeftToOthers f kin outside g where
  isCancelled_iff := h.isCancelled_iff
  descends u hu hup := by
    rcases (h.isCancelled_iff u hu).mp hup with hup | ⟨v, hv, habove⟩
    · exact .inl hup
    · exact .inr ⟨v, hv, hf.eq_or_descends_of_isAbove habove⟩
  line v hv u hline := by
    refine (h.isCancelled_iff u (Kindred.lt_length_of_line hline)).mpr ?_
    rcases hf.isAbove_of_line hline with hup | habove
    · exact .inl hup
    · exact .inr ⟨v, hv, habove⟩

/-! ## One call

A call leads from one forest to another, and each of its steps does to the tokens of others what
cancelling what it cancels does. -/

/-- A step of the batch itself cancels at most the token of the batch. -/
theorem follows_transition (h : Follows f outside s.forest)
    (hscope : f.nodes.length ≤ b.scope.token) (ht : Transition b s label s') :
    Follows f (outside ++ label.cancels?.toList) s'.forest := by
  cases ht with
  | cancel v => exact h.cancel v
  | callOffFailure | callOffAlarm =>
    show Follows f (outside ++ []) _
    rw [List.append_nil]
    exact (h.cancel b.scope.token).of_concat hscope
  | _ =>
    show Follows f (outside ++ []) _
    rw [List.append_nil]
    exact h

/-- A run does to others what cancelling from outside does. -/
theorem follows_of_run (h : Follows f outside s₀.forest) (hscope : f.nodes.length ≤ b.scope.token)
    (hrun : run b s₀ labels = some s) : Follows f (outside ++ cancelledBy labels) s.forest := by
  refine run_induction (motive := fun labels s => Follows f (outside ++ cancelledBy labels) s.forest)
    ?_ (fun labels s label s' _ h ht => ?_) hrun
  · show Follows f (outside ++ []) _
    rw [List.append_nil]
    exact h
  · rw [cancelledBy_concat, ← List.append_assoc]
    exact follows_transition h hscope ht

/-- **A call leaves the tokens of before to those outside.** Its own token is newer, and goes when the
call has ended. -/
theorem follows_of_call (h : Follows f outside t.forest) (hr : scope.token < f.nodes.length)
    (hstart : r.start tags scope t = some (b, s₀)) (hrun : run b s₀ labels = some s)
    (upcoming : Option Appointment) :
    Follows f (outside ++ cancelledBy labels)
      (Resolver.conclude b t.now s upcoming).timeline.forest := by
  obtain ⟨deadline, -, rfl, rfl⟩ := start_eq_some_iff.mp hstart
  -- the token of the batch is the first that was not there before
  exact (follows_of_run (h.child hr) h.length_le hrun).release h.length_le

/-- A cancellation makes nobody kin, and the token of a batch that has ended is held by fewer. -/
theorem kindred_of_call (hf : t.forest.Kindred kin) (hr : scope.token < t.forest.nodes.length)
    (hstart : r.start tags scope t = some (b, s₀)) (hrun : run b s₀ labels = some s)
    (upcoming : Option Appointment) :
    (Resolver.conclude b t.now s upcoming).timeline.forest.Kindred
      (kin ++ [(scope.token, t.forest.nodes.length)]) := by
  obtain ⟨deadline, -, rfl, rfl⟩ := start_eq_some_iff.mp hstart
  have hlast : s.forest.Kindred (kin ++ [(scope.token, t.forest.nodes.length)]) := by
    refine run_induction
      (motive := fun _ s => s.forest.Kindred (kin ++ [(scope.token, t.forest.nodes.length)]))
      (hf.child hr) (fun _ s _ s' _ h ht => ?_) hrun
    rcases forest_transition ht with heq | ⟨v, heq, -⟩
    · rw [heq]
      exact h
    · rw [heq]
      exact h.cancel v
  exact hlast.of_sameTree (sameTree_release _ _) fun _ => isHeld_of_release

/-! ## Any number of calls

A resolver is called for a page and a request, again and again, each call running as it will. Between
the calls time passes, tokens are cancelled, and other scopes are made below the tokens of before. None
of the tokens of before is dropped meanwhile; some may have been dropped before. -/

/-- Calls of a resolver and what happens between them. The tokens that others cancelled are listed,
during the calls and between them, and each new token after its parent. -/
inductive Calls (r : Resolver) (tags : List Include) (scope : Scope) (t : Timeline) :
    List Token → List (Token × Token) → Timeline → Prop
  | none : Calls r tags scope t [] [] t
  | elapse {outside : List Token} {made : List (Token × Token)} {t₁ : Timeline} {instant : Instant}
      (h : Calls r tags scope t outside made t₁) (hle : t₁.now ≤ instant) :
      Calls r tags scope t outside made { t₁ with now := instant }
  | cancel {outside : List Token} {made : List (Token × Token)} {t₁ : Timeline}
      (h : Calls r tags scope t outside made t₁) (v : Token) :
      Calls r tags scope t (outside ++ [v]) made { t₁ with forest := t₁.forest.cancel v }
  | nest {outside : List Token} {made : List (Token × Token)} {t₁ : Timeline} {p : Token}
      (h : Calls r tags scope t outside made t₁) (hp : p < t.forest.nodes.length) :
      Calls r tags scope t outside (made ++ [(p, t₁.forest.nodes.length)])
        { t₁ with forest := (t₁.forest.child p).2 }
  | call {outside : List Token} {made : List (Token × Token)} {t₁ : Timeline} {b : Setup}
      {s₀ s : State} {labels : List Label} (h : Calls r tags scope t outside made t₁)
      (hstart : r.start tags scope t₁ = some (b, s₀)) (hrun : run b s₀ labels = some s)
      (hfin : s.isFinished = true) (upcoming : Option Appointment) :
      Calls r tags scope t (outside ++ cancelledBy labels)
        (made ++ [(scope.token, t₁.forest.nodes.length)])
        (Resolver.conclude b t₁.now s upcoming).timeline

/-- **Whatever a resolver brings when it is called several times, it brings after such calls.** -/
theorem calls_of_resolveTimes {fetcher : Fetcher} {times : Nat} {resolutions : List Resolution}
    (hne : tags ≠ []) (hcalls : Calls r tags scope t outside made t₁)
    (h : r.resolveTimes fetcher tags scope times t₁ = some resolutions) :
    ∀ res ∈ resolutions, ∃ outside' made', Calls r tags scope t outside' made' res.timeline := by
  induction times generalizing t₁ outside made resolutions with
  | zero =>
    cases h
    intro res hmem
    cases hmem
  | succ times ih =>
    unfold Resolver.resolveTimes at h
    split at h
    · cases h
    · rename_i first hfirst
      obtain ⟨b, s₀, labels, s, upcoming, hstart, hrun, hfin, rfl, -⟩ :=
        exists_run_of_resolve hne hfirst
      -- each call of the row is one more call after those before it
      have hone := hcalls.call hstart hrun hfin upcoming
      split at h
      · cases h
      · rename_i rest hrest
        cases h
        intro res hmem
        rcases List.mem_cons.mp hmem with rfl | hmem
        · exact ⟨_, _, hone⟩
        · exact ih hone hrest res hmem

/-- Calls one behind the other do to others what cancelling from outside does. -/
theorem follows_of_calls (hf : t.forest.Settled) (hr : scope.token < t.forest.nodes.length)
    (h : Calls r tags scope t outside made t₁) : Follows t.forest outside t₁.forest := by
  induction h with
  | none => exact .refl hf
  | elapse _ _ ih => exact ih
  | cancel _ v ih => exact ih.cancel v
  | nest _ hp ih => exact ih.child hp
  | call _ hstart hrun _ upcoming ih => exact follows_of_call ih hr hstart hrun upcoming

/-- Only the tokens that were made meanwhile have become kin. -/
theorem kindred_of_calls (hf : t.forest.Kindred kin) (hr : scope.token < t.forest.nodes.length)
    (h : Calls r tags scope t outside made t₁) : t₁.forest.Kindred (kin ++ made) := by
  induction h with
  | none =>
    rw [List.append_nil]
    exact hf
  | elapse _ _ ih => exact ih
  | cancel _ v ih => exact ih.cancel v
  | nest h hp ih =>
    rw [← List.append_assoc]
    exact ih.child (Nat.lt_of_lt_of_le hp (follows_of_calls hf.toSettled hr h).length_le)
  | call h hstart hrun _ upcoming ih =>
    have hr₁ := Nat.lt_of_lt_of_le hr (follows_of_calls hf.toSettled hr h).length_le
    rw [← List.append_assoc]
    exact kindred_of_call ih hr₁ hstart hrun upcoming

/-- **A batch leaks neither into its request nor into its page.** After any number of calls, what became
of the tokens of before is what others made of them: of the request, of what else is scoped from it, and
of all the rest. One more call has a new token, with the flag of the request; however it ends, the page
is as it was, and again the flags are what others made of them. The courses that it can take are those
of a call that is the first, with the same tokens cancelled by others; they depend on the page, the
clock, and the flag and the deadline of the request alone. -/
theorem batch_does_not_leak (hf : t.forest.Kindred kin) (hr : scope.token < t.forest.nodes.length)
    (hcalls : Calls r tags scope t outside made t₁) :
    LeftToOthers t.forest kin outside t₁.forest ∧
    (∀ b s₀ labels s upcoming, r.start tags scope t₁ = some (b, s₀) → run b s₀ labels = some s →
      s.isFinished = true →
      b.scope.token = t₁.forest.nodes.length ∧
      s₀.forest.isCancelled b.scope.token = t₁.forest.isCancelled scope.token ∧
      s.workers.map Worker.tag = tags ∧
      LeftToOthers t₁.forest (kin ++ made) (cancelledBy labels)
        (Resolver.conclude b t₁.now s upcoming).timeline.forest) ∧
    (∀ c, CanTake r tags scope t₁ c ↔
      CanTake r tags scope { forest := outside.foldl Forest.cancel t.forest, now := t₁.now } c) ∧
    ∀ scope' t', t'.forest.Settled → scope'.token < t'.forest.nodes.length → t'.now = t₁.now →
      scope'.deadline = scope.deadline →
      t'.forest.isCancelled scope'.token = t₁.forest.isCancelled scope.token →
      ∀ c, CanTake r tags scope t₁ c ↔ CanTake r tags scope' t' c := by
  have hfollows := follows_of_calls hf.toSettled hr hcalls
  have hkin := kindred_of_calls hf hr hcalls
  have hr₁ := Nat.lt_of_lt_of_le hr hfollows.length_le
  have hf₁ := hfollows.settled.toWellFormed
  refine ⟨leftToOthers_of_follows hf hfollows, fun b s₀ labels s upcoming hstart hrun _ => ?_, ?_,
    fun scope' t' hf' hr' hnow hdeadline hflag =>
      canTake_iff hf₁ hf'.toWellFormed hr₁ hr' hnow hdeadline hflag⟩
  · -- one more call, measured from where the calls before it have left off
    have hone := follows_of_call (.refl hfollows.settled) hr₁ hstart hrun upcoming
    have htags := (bookkeeping_of_run hstart hrun).recorded.map_tag
    rw [List.nil_append] at hone
    obtain ⟨deadline, -, rfl, rfl⟩ := start_eq_some_iff.mp hstart
    refine ⟨rfl, ?_, htags, leftToOthers_of_follows hkin hone⟩
    show (t₁.forest.child scope.token).2.isCancelled t₁.forest.nodes.length = _
    rw [isCancelled_child hf₁, if_pos rfl]
  · -- without the calls the same tokens were cancelled
    have hfirst := Follows.foldl_cancel hf.toSettled outside
    exact canTake_iff hf₁ hfirst.settled.toWellFormed hr₁
      (Nat.lt_of_lt_of_le hr hfirst.length_le) rfl rfl (hfirst.isCancelled_eq hfollows hr)

/-- A token, a request below it, and a scope below the request. -/
def familyDeeds : List Operation := [.create, .child 0, .child 1]

/-- The tokens of the family. -/
def family : Forest := (familyDeeds.foldl Registry.step {}).forest

/-- The fetch of the first worker fails, and the second gives up. -/
def fallingThrough : List Label :=
  [.fetch 0, .fetch 1, .finish 0 (.failed (.connection "refused")), .keep (.worker 0),
    .callOff (.worker 0), .finish 1 (.failed .cancelled), .join 0, .keep (.worker 1),
    .callOff (.worker 1), .join 1, .close]

/-- The batch of the request of the family. -/
def familySetup : Setup :=
  { requestToken := 1, scope := { loneScope with token := 3 } }

/-- The scope of that request. -/
def childScope : Scope := { loneScope with token := 1 }

/-- The first call falls through, and the second brings all fragments. -/
theorem batch_does_not_leak_fallingThrough :
    ∃ (t₁ : Timeline) (b₁ : Setup) (s₁ s₂ : State), family.Kindred [(0, 1), (1, 2)] ∧
      childScope.token < family.nodes.length ∧
      Calls {} twoTags childScope { forest := family } [] [(1, 3)] t₁ ∧
      t₁.forest.isCancelled 3 = true ∧ t₁.forest.isCancelled 1 = false ∧
      t₁.forest.isCancelled 2 = false ∧
      Resolver.start {} twoTags childScope t₁ = some (b₁, s₁) ∧
      run b₁ s₁ overtaking = some s₂ ∧ s₂.isFinished = true ∧
      s₂.result = .ok [⟨10, 20, [2]⟩, ⟨0, 10, [1]⟩] ∧
      b₁.scope.token = t₁.forest.nodes.length ∧ s₂.workers.map Worker.tag = twoTags ∧
      ∀ c, CanTake {} twoTags childScope t₁ c ↔
        CanTake {} twoTags childScope { forest := family } c := by
  have hf : family.Kindred [(0, 1), (1, 2)] := (Registry.kept_foldl_step familyDeeds).1.toKindred
  have hr : childScope.token < family.nodes.length := by decide
  have hstart : Resolver.start {} twoTags childScope { forest := family } =
      some (familySetup, beginning {} twoTags childScope { forest := family }) := by rfl
  obtain ⟨s, b₁, s₁, s₂, hrun, hfin, hnow, hscope, hstart₁, hrun₁, hfin₁, hok⟩ :
      ∃ s b₁ s₁ s₂,
        run familySetup (beginning {} twoTags childScope { forest := family }) fallingThrough =
          some s ∧ s.isFinished = true ∧ s.now = Instant.start ∧
        (s.forest.release 3).isCancelled 3 = true ∧
        Resolver.start {} twoTags childScope
          (Resolver.conclude familySetup Instant.start s none).timeline = some (b₁, s₁) ∧
        run b₁ s₁ overtaking = some s₂ ∧ s₂.isFinished = true ∧
        s₂.result = .ok [⟨10, 20, [2]⟩, ⟨0, 10, [1]⟩] :=
    ⟨_, _, _, _, by rfl, by rfl, by rfl, by rfl, by rfl, by rfl, by rfl, by rfl⟩
  have hcalls : Calls {} twoTags childScope { forest := family } [] [(1, 3)]
      (Resolver.conclude familySetup Instant.start s none).timeline :=
    .call .none hstart hrun hfin none
  obtain ⟨hflags, hnext, hcourses, -⟩ := batch_does_not_leak hf hr hcalls
  have hdown {u : Token} (hu : u < family.nodes.length) (hu' : family.isCancelled u = false) :
      (Resolver.conclude familySetup Instant.start s none).timeline.forest.isCancelled u = false := by
    rw [← Bool.not_eq_true, hflags.isCancelled_iff u hu]
    rintro (hup | ⟨v, hv, -⟩)
    · rw [hu'] at hup
      cases hup
    · cases hv
  obtain ⟨htoken, -, htags, -⟩ := hnext b₁ s₁ overtaking s₂ none hstart₁ hrun₁ hfin₁
  refine ⟨_, b₁, s₁, s₂, hf, hr, hcalls, hscope, hdown (by decide) (by decide),
    hdown (by decide) (by decide), hstart₁, hrun₁, hfin₁, hok, htoken, htags, fun c => ?_⟩
  have hthen : (Resolver.conclude familySetup Instant.start s none).timeline.now = Instant.start :=
    hnow
  rw [hcourses c, hthen]
  rfl

/-- The same family, but the scope in the middle is gone. -/
def orphanDeeds : List Operation := familyDeeds ++ [.drop 1]

/-- The tokens of that family. -/
def orphaned : Forest := (orphanDeeds.foldl Registry.step {}).forest

/-- The scope at the end of the family, as a request. -/
def orphanScope : Scope := { loneScope with token := 2 }

/-- **A request does not hear of an ancestor behind a token that is gone.** Its parent was dropped; then
its grandparent is cancelled during a call, and at the end of the call its own flag is still down. -/
theorem cancellation_misses_orphaned_request :
    orphaned.Kindred (Registry.kinships {} orphanDeeds) ∧
      Descends (Registry.kinships {} orphanDeeds) 0 orphanScope.token ∧
      orphaned.isHeld orphanScope.token = true ∧
      ∃ (b : Setup) (s₀ s : State),
        Resolver.start {} twoTags orphanScope { forest := orphaned } = some (b, s₀) ∧
        run b s₀ (.cancel 0 :: overtaking) = some s ∧ s.isFinished = true ∧
        s.result = .ok [⟨10, 20, [2]⟩, ⟨0, 10, [1]⟩] ∧
        (Resolver.conclude b Instant.start s none).timeline.forest.isCancelled 0 = true ∧
        (Resolver.conclude b Instant.start s none).timeline.forest.isCancelled orphanScope.token =
          false := by
  have hline : Registry.kinships {} orphanDeeds = [(0, 1), (1, 2)] := by rfl
  refine ⟨(Registry.kept_foldl_step orphanDeeds).1.toKindred, ?_, by rfl, _, _, _, by rfl, by rfl, by rfl,
    by rfl, by rfl, by rfl⟩
  rw [hline]
  exact .tail (.single (b := 1) (by decide)) (show (1, 2) ∈ _ by decide)

end EdgeInclude.Batch
