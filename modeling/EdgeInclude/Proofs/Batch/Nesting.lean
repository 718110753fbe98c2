import EdgeInclude.Proofs.Batch.Transition
import EdgeInclude.Proofs.Cancellation.Kinship

/-!
# The place of a batch among the tokens

A batch has a token of its own, which hangs below the token of the request and below nothing else.
So there are only two ways to cancel a batch: to cancel its own token, or to cancel the request.

* **`Nested`**: where the token of the batch is linked, and what its flag has to do with the flag of
  the request.
* **`Nested.cancel`**: no cancellation changes that, whatever token it is for.
* **`Nested.of_cancel`**: a cancellation that reaches the batch begins at its token or reaches the
  request too.
* **`nested_of_run`**: a batch is nested in every state of every run.
-/

namespace EdgeInclude.Batch

open Cancellation Forest

variable {b : Setup} {s₀ s s' : State} {label : Label} {labels : List Label} {f : Forest} {t : Token}

/-- The token of the batch hangs below the token of the request alone. -/
structure Nested (b : Setup) (f : Forest) : Prop where
  wellFormed : f.WellFormed
  ne : b.scope.token ≠ b.requestToken
  isHeld : f.isHeld b.scope.token = true
  /-- There is no other parent. -/
  parent : ∀ p, b.scope.token ∈ f.childrenOf p → p = b.requestToken
  /-- The link is there until it is used. -/
  linked : f.isCancelled b.requestToken = false → b.scope.token ∈ f.childrenOf b.requestToken
  /-- It has been used when the request is cancelled. -/
  cancelled : f.isCancelled b.requestToken = true → f.isCancelled b.scope.token = true

/-! ## What cancellations do

Cancelling whatever others hold leaves the link from request to batch, or cancels the batch with it.
-/

/-- **A cancellation comes to a batch from its request**, unless it begins at its own token. -/
theorem Nested.of_cancel (hn : Nested b f) (ht : t ≠ b.scope.token)
    (h : (f.cancel t).isCancelled b.scope.token = true) :
    f.isCancelled b.scope.token = true ∨ (f.cancel t).isCancelled b.requestToken = true := by
  have hunlocked := hn.wellFormed.unlocked
  rcases (isCancelled_cancel_iff hunlocked).mp h with hup | hreaches
  · exact .inl hup
  · cases hreaches with
    | root => exact absurd rfl ht
    | child hp hc _ _ =>
      obtain rfl := hn.parent _ hc
      exact .inr ((isCancelled_cancel_iff hunlocked).mpr (.inr hp))

/-- Calling off a batch cancels it. -/
theorem Nested.isCancelled_cancel (hn : Nested b f) :
    (f.cancel b.scope.token).isCancelled b.scope.token = true :=
  isCancelled_cancel_self hn.wellFormed (lt_length_of_isHeld hn.isHeld)

/-- A batch stays nested when a token is cancelled. -/
theorem Nested.cancel (hn : Nested b f) (t : Token) : Nested b (f.cancel t) := by
  have hunlocked := hn.wellFormed.unlocked
  refine
    { wellFormed := hn.wellFormed.cancel, ne := hn.ne, isHeld := ?isHeld
      parent := fun p hp => ?parent, linked := fun hdown => ?linked
      cancelled := fun hup => ?cancelled }
  case isHeld =>
    rw [isHeld_cancel hunlocked]
    exact hn.isHeld
  case parent => exact hn.parent p (mem_childrenOf_of_cancel hunlocked hp)
  case linked =>
    have hnot : ¬ (f.cancel t).isCancelled b.requestToken = true := by simp [hdown]
    rw [isCancelled_cancel_iff hunlocked, not_or] at hnot
    rw [childrenOf_cancel hunlocked hnot.2]
    exact hn.linked (by simpa using hnot.1)
  case cancelled =>
    rw [isCancelled_cancel_iff hunlocked] at hup ⊢
    rcases hup with hup | hreaches
    · exact .inl (hn.cancelled hup)
    · -- the request is reached, so its link to the batch is followed
      cases hdown : f.isCancelled b.scope.token with
      | true => exact .inl rfl
      | false =>
        have hlink := hn.linked hreaches.isCancelled_eq_false
        exact .inr (.child hreaches hlink hn.isHeld hdown)

/-! ## Every run

So in every run the batch is cancelled with its request. -/

/-- A new batch hangs below its request. -/
theorem nested_beginning {r : Resolver} {tags : List Include} {scope : Scope} {t : Timeline}
    (hf : t.forest.WellFormed) (hr : scope.token < t.forest.nodes.length)
    (hstart : r.start tags scope t = some (b, s₀)) : Nested b s₀.forest := by
  obtain ⟨deadline, -, rfl, rfl⟩ := start_eq_some_iff.mp hstart
  have hne : scope.token ≠ t.forest.nodes.length := Nat.ne_of_lt hr
  refine
    { wellFormed := hf.child, ne := Ne.symm hne, isHeld := isHeld_child hf
      parent := fun p hp => ?parent, linked := fun hdown => ?linked
      cancelled := fun hup => ?cancelled }
  case parent =>
    rcases mem_childrenOf_child hf hp with hp | ⟨-, rfl⟩
    · exact absurd (hf.lt_length p _ hp) (Nat.lt_irrefl _)
    · rfl
  case linked =>
    show t.forest.nodes.length ∈ (t.forest.child scope.token).2.childrenOf scope.token
    have hdown' : (t.forest.child scope.token).2.isCancelled scope.token = false := hdown
    rw [isCancelled_child hf, if_neg hne] at hdown'
    exact mem_childrenOf_child_self hf hr hdown'
  case cancelled =>
    show (t.forest.child scope.token).2.isCancelled t.forest.nodes.length = true
    have hup' : (t.forest.child scope.token).2.isCancelled scope.token = true := hup
    rw [isCancelled_child hf, if_neg hne] at hup'
    rw [isCancelled_child hf, if_pos rfl, hup']

/-- A step changes no token, or it cancels one: the one that it names, or that of the batch. -/
theorem forest_transition (h : Transition b s label s') :
    s'.forest = s.forest ∨ ∃ t, s'.forest = s.forest.cancel t ∧
      (label = .cancel t ∨ t = b.scope.token ∧ ∃ who, label = .callOff who) := by
  cases h with
  | cancel t => exact .inr ⟨t, rfl, .inl rfl⟩
  | callOffFailure => exact .inr ⟨b.scope.token, rfl, .inr ⟨rfl, _, rfl⟩⟩
  | callOffAlarm => exact .inr ⟨b.scope.token, rfl, .inr ⟨rfl, _, rfl⟩⟩
  | _ => exact .inl rfl

/-- The batch stays below its request, whatever happens. -/
theorem nested_transition (hn : Nested b s.forest) (h : Transition b s label s') :
    Nested b s'.forest := by
  rcases forest_transition h with heq | ⟨t, heq, -⟩
  · rw [heq]
    exact hn
  · rw [heq]
    exact hn.cancel t

/-- A token that is cancelled stays so. -/
theorem isCancelled_transition (hn : Nested b s.forest) (h : Transition b s label s')
    (hup : s.forest.isCancelled t = true) : s'.forest.isCancelled t = true := by
  rcases forest_transition h with heq | ⟨u, heq, -⟩
  · rw [heq]
    exact hup
  · rw [heq]
    exact isCancelled_cancel_of hn.wellFormed.unlocked hup

/-- **A batch is nested in every state of every run** that begins below a token of a well-formed
forest. -/
theorem nested_of_run (hn : Nested b s₀.forest) (hrun : run b s₀ labels = some s) :
    Nested b s.forest :=
  run_induction hn (fun _ _ _ _ _ hn h => nested_transition hn h) hrun

end EdgeInclude.Batch
