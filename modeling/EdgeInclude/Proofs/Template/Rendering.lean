import EdgeInclude.Proofs.Template.Grammar

/-!
# What a template renders as

Rendering goes once through the text of a template. Literal text stays as it is, and in the place of an
action comes what the request has for it. That is not looked at again, and nothing else of the request
is looked at.

* **`Action.Agrees`**: two requests have the same for an action. **`Template.render_congr`**.
* **`Template.Fills`**: one way through a text. **`fills_iff`**: rendering goes it.
-/

namespace EdgeInclude

/-! ## What an action reads

Each action reads one thing of a request. -/

/-- Two requests have the same for an action: of a header the first value, and of parameters the one of
that name. -/
def Action.Agrees (r r' : Request) : Action → Prop
  | header name => (r.headers.values name).head? = (r'.headers.values name).head?
  | query name => r.query.get? name = r'.query.get? name
  | param name => r.params.get? name = r'.params.get? name
  | path => r.path = r'.path
  | method => r.method = r'.method
  | requestId => r.id = r'.id

instance (r r' : Request) : DecidablePred (Action.Agrees r r')
  | .header _ | .query _ | .param _ | .path | .method | .requestId =>
    inferInstanceAs (Decidable (_ = _))

variable {r r' : Request}

/-- A header is read as its first value, if that can be shown as text. -/
theorem Headers.get?_eq_bind (h : Headers) (name : String) : h.get? name =
    (h.values name).head?.bind fun value =>
      if value.all isShown then some (Utf8.lossy value) else none := by
  unfold get?
  cases h.values name <;> rfl

/-- Requests that agree in what an action reads give it the same value. -/
theorem Action.value_congr {a : Action} (h : a.Agrees r r') : a.value r = a.value r' := by
  cases a with
  | header name =>
    rw [value, value, Headers.get?_eq_bind, Headers.get?_eq_bind]
    exact congrArg (fun first => (Option.bind first _).getD "") h
  | query name | param name => exact congrArg (Option.getD · "") h
  | path | method | requestId => exact h

namespace Template

/-- **Rendering reads nothing but what the actions name.** -/
theorem render_congr {t : Template} (h : ∀ a ∈ t.actions, a.Agrees r r') :
    t.render r = t.render r' := by
  unfold render
  congr 1
  refine List.map_congr_left fun part hpart => ?_
  cases part with
  | text literal => rfl
  | action a => exact Action.value_congr (h a (List.mem_filterMap.mpr ⟨_, hpart, rfl⟩))

/-! ## Filling in a text

Parts and text are gone through together. -/

/-- What a text becomes for a request. Literal text up to the next opening braces stays; behind it comes
what the request has for the action that is spelled there, and then what the rest of the text becomes. -/
inductive Fills (r : Request) : List Char → List Char → Prop
  | last {literal : List Char} (hnone : ¬ opening <:+: literal) : Fills r literal literal
  | next {literal spelled rest filled : List Char} {a : Action}
      (hfirst : BeginsNowhere opening literal (spelled ++ rest)) (ha : Spells a spelled)
      (h : Fills r rest filled) :
      Fills r (literal ++ (spelled ++ rest)) (literal ++ ((a.value r).toList ++ filled))

variable {cs filled : List Char} {parts : List Part} {t : Template}

theorem flatMap_textPart (literal : List Char) :
    (textPart literal).flatMap (fun part => (part.value r).toList) = literal := by
  cases literal <;> simp [textPart, Part.value]

/-- Filling in part by part is filling in the text. -/
theorem fills_of_written (h : Written cs parts) :
    Fills r cs (parts.flatMap fun part => (part.value r).toList) := by
  induction h with
  | last hnone =>
    rw [flatMap_textPart]
    exact .last hnone
  | next hfirst ha _ ih =>
    rw [List.flatMap_append, flatMap_textPart, List.flatMap_cons]
    exact .next hfirst ha ih

/-- What a text becomes comes from its parts. -/
theorem exists_written_of_fills (h : Fills r cs filled) :
    ∃ parts, Written cs parts ∧ filled = parts.flatMap fun part => (part.value r).toList := by
  induction h with
  | @last literal hnone => exact ⟨_, .last hnone, (flatMap_textPart literal).symm⟩
  | @next literal spelled rest filled a hfirst ha _ ih =>
    obtain ⟨parts, hwritten, rfl⟩ := ih
    refine ⟨_, .next hfirst ha hwritten, ?_⟩
    rw [List.flatMap_append, flatMap_textPart, List.flatMap_cons]
    rfl

/-- **A template renders as what its text becomes.** -/
theorem fills_iff (h : compile t.source = .ok t) :
    Fills r t.source.toList filled ↔ filled = (t.render r).toList := by
  have hwritten := (compile_eq_ok_iff.mp h).2
  have hrender : (t.render r).toList = t.parts.flatMap fun part => (part.value r).toList := by
    rw [render, String.toList_join, List.flatMap_map]
  rw [hrender]
  constructor
  · intro hfills
    obtain ⟨parts, hparts, rfl⟩ := exists_written_of_fills hfills
    -- there is one way to read the text
    have hsame : Except.ok parts = Except.ok t.parts :=
      ((compileFrom_eq_ok_iff 0).mpr hparts).symm.trans ((compileFrom_eq_ok_iff 0).mpr hwritten)
    rw [Except.ok.inj hsame]
  · rintro rfl
    exact fills_of_written hwritten

end Template

end EdgeInclude
