import EdgeInclude.Proofs.Template.Grammar

/-!
# Templates one behind the other

Nothing in a template depends on what stands behind it, and what stands behind it is compiled as it
would be alone, with its errors moved by the bytes in front. Only two braces that meet where the texts
meet would make a difference.

* **`compileFrom_shift`**: where a text begins makes no difference but to the offsets of errors.
* **`compileFrom_append`**: behind a text that can be compiled, another one is compiled on its own.
* **`compile_append`**: the same of whole templates, of their actions and of what they render as.
-/

namespace EdgeInclude.Template

/-- The error in a text that has `n` more bytes in front of it. -/
def CompileError.shift (n : Nat) : CompileError → CompileError
  | unclosedAction offset => unclosedAction (n + offset)
  | emptyAction offset => emptyAction (n + offset)
  | unterminatedString offset => unterminatedString (n + offset)
  | unknownFunction name => unknownFunction name
  | arity function expected found => arity function expected found
  | unexpectedToken token => unexpectedToken token

variable {literal rest cs : List Char} {ts : List Token} {parts qs : List Part}

/-! ## Offsets

Where a text stands in another only moves the offsets in its errors. -/

theorem map_mapError {ε ε' α β : Type} (x : Except ε α) (f : ε → ε') (g : α → β) :
    (x.mapError f).map g = (x.map g).mapError f := by
  cases x <;> rfl

theorem mapError_bind {ε α β : Type} (x : Except ε α) (f : ε → ε) (g : α → Except ε β) :
    ((x.mapError f).bind fun a => (g a).mapError f) = (x.bind g).mapError f := by
  cases x <;> rfl

/-- Reading an action further on moves the offsets of its errors. -/
theorem lexAction_shift (n start pos : Nat) (cs : List Char) :
    lexAction (n + start) (n + pos) cs = (lexAction start pos cs).mapError (.shift n) := by
  induction hlength : cs.length using Nat.strongRecOn generalizing pos cs with
  | ind length ih =>
    subst hlength
    cases cs with
    | nil =>
      rw [lexAction_nil, lexAction_nil]
      rfl
    | cons c cs =>
      by_cases hclosing : closing <+: c :: cs
      · obtain ⟨rest, hrest⟩ := hclosing
        rw [← hrest, lexAction_closing, lexAction_closing]
        rfl
      · -- each element is taken in the same way, and what follows it is shorter
        rw [lexAction_cons hclosing, lexAction_cons hclosing]
        split
        · rw [Nat.add_assoc]
          exact ih _ (Nat.lt_succ_self _) _ _ rfl
        · split
          · split
            · rfl
            · rename_i body rest htake
              have hlt : rest.length < (c :: cs).length :=
                Nat.lt_succ_of_lt (length_takeQuoted_lt htake)
              rw [← map_mapError, ← ih _ hlt _ _ rfl, Nat.add_assoc, Nat.add_assoc, Nat.add_assoc]
          · have hlt : (takeWord cs).2.length < (c :: cs).length :=
              Nat.lt_succ_of_le (length_takeWord_le cs)
            rw [← map_mapError, ← ih _ hlt _ _ rfl, Nat.add_assoc]

/-- What is wrong with an argument is said without an offset. -/
theorem shift_of_arguments {e : CompileError} (n : Nat) (h : Template.arguments ts = .error e) :
    e.shift n = e := by
  fun_induction Template.arguments ts with
  | case1 => cases h
  | case2 => cases h; rfl
  | case3 cs ts e' hrest ih =>
    cases h
    exact ih hrest
  | case4 => cases h

/-- What is wrong with a function has no offset. -/
theorem shift_of_applyFunction {e : CompileError} {name : String} {args : List String} (n : Nat)
    (h : applyFunction name args = .error e) : e.shift n = e := by
  unfold applyFunction at h
  dsimp only at h
  split at h
  case h_7 => cases h; rfl
  all_goals
    split at h
    · cases h
    · cases h
      rfl

/-- What is wrong with an action moves with it. -/
theorem actionOf_shift (n start : Nat) (ts : List Token) :
    actionOf (n + start) ts = (actionOf start ts).mapError (.shift n) := by
  unfold actionOf
  split
  · rfl
  · rfl
  · split
    · split
      · rename_i hargs
        exact congrArg Except.error (shift_of_arguments n hargs).symm
      · rename_i args _
        cases happly : applyFunction _ args with
        | ok => rfl
        | error => exact congrArg Except.error (shift_of_applyFunction n happly).symm
    · rfl

/-- What is left behind an action ends the text. -/
theorem Lexes.suffix (h : Lexes cs ts rest) : rest <:+ cs := by
  induction h with
  | close rest => exact List.suffix_append closing rest
  | blank _ _ ih => exact ih.trans (List.suffix_cons _ _)
  | @quoted quote body cs rest ts _ _ _ ih =>
    exact ((ih.trans (List.suffix_cons _ _)).trans (List.suffix_append _ _)).trans
      (List.suffix_cons _ _)
  | word _ _ _ ih => exact ih.trans (List.suffix_append _ _)

theorem byteLength_le_of_suffix (h : rest <:+ cs) : byteLength rest ≤ byteLength cs := by
  obtain ⟨before, rfl⟩ := h
  rw [byteLength_append]
  exact Nat.le_add_left _ _

/-- **Where a text begins makes no difference but to the offsets of errors.** -/
theorem compileFrom_shift (n pos : Nat) (cs : List Char) :
    compileFrom (n + pos) cs = (compileFrom pos cs).mapError (.shift n) := by
  induction hlength : cs.length using Nat.strongRecOn generalizing pos cs with
  | ind length ih =>
    subst hlength
    rw [compileFrom_eq, compileFrom_eq]
    rcases hsplit : splitMarker cs with ⟨literal, _ | body⟩
    · rfl
    dsimp only
    rw [Nat.add_assoc n, Nat.add_assoc n, lexAction_shift]
    cases hlex : lexAction (pos + byteLength literal) (pos + byteLength literal + 2) body with
    | error => rfl
    | ok l =>
      have hlt : l.rest.length < cs.length :=
        Nat.lt_trans (length_rest_lexAction_lt hlex) (length_splitMarker_lt hsplit)
      have hrest : byteLength l.rest ≤ pos + byteLength cs := by
        have hbody := byteLength_le_of_suffix (lexes_of_lexAction hlex).suffix
        rw [(splitMarker_eq_some_iff.mp hsplit).1, byteLength_append, byteLength_append]
        omega
      have hgo (a : Action) :
          ((compileFrom (n + (pos + byteLength cs) - byteLength l.rest) l.rest).map fun parts =>
            textPart literal ++ .action a :: parts) =
          ((compileFrom (pos + byteLength cs - byteLength l.rest) l.rest).map fun parts =>
            textPart literal ++ .action a :: parts).mapError (.shift n) := by
        rw [Nat.add_sub_assoc hrest, ih _ hlt _ _ rfl, map_mapError]
      show (actionOf (n + (pos + byteLength literal)) l.tokens).bind _ =
        ((actionOf (pos + byteLength literal) l.tokens).bind _).mapError (.shift n)
      rw [actionOf_shift, ← mapError_bind, Nat.add_assoc n, funext hgo]

/-! ## One text behind the other

Literal text at the end of the one text and at the front of the other becomes one part. Opening
braces must not come about where they meet. -/

/-- Parts one behind the other. Literal texts that meet are one. -/
def join : List Part → List Part → List Part
  | [.text s], .text t :: qs => .text (s ++ t) :: qs
  | [], qs => qs
  | p :: ps, qs => p :: join ps qs

/-- Literal texts that meet become one. -/
theorem join_textPart (literal text : List Char) (hqs : ∀ q ∈ qs.head?, q.action?.isSome = true) :
    join (textPart literal) (textPart text ++ qs) = textPart (literal ++ text) ++ qs := by
  cases literal with
  | nil => rfl
  | cons c literal =>
    cases text with
    | cons d text =>
      show [Part.text (String.ofList (c :: literal) ++ String.ofList (d :: text))] ++ qs = _
      rw [← String.ofList_append]
      rfl
    | nil =>
      rw [List.append_nil]
      -- what follows the literal text is no text
      cases qs with
      | nil => rfl
      | cons q qs =>
        cases q with
        | text => exact absurd (hqs _ rfl) Bool.false_ne_true
        | action => rfl

theorem join_action (literal : List Char) (a : Action) (parts qs : List Part) :
    join (textPart literal ++ .action a :: parts) qs =
      textPart literal ++ .action a :: join parts qs := by
  cases literal <;> rfl

/-- The actions are those of both. -/
theorem filterMap_action?_join (parts qs : List Part) :
    (join parts qs).filterMap Part.action? =
      parts.filterMap Part.action? ++ qs.filterMap Part.action? := by
  fun_induction join parts qs with
  | case1 => rfl
  | case2 => rfl
  | case3 p parts qs _ ih =>
    rw [← List.singleton_append, List.filterMap_append, ih, ← List.append_assoc,
      ← List.filterMap_append]
    rfl

/-- Joined parts render as one behind the other. -/
theorem render_join (source : String) (parts qs : List Part) (r : Request) :
    render ⟨source, join parts qs⟩ r = render ⟨source, parts⟩ r ++ render ⟨source, qs⟩ r := by
  unfold render
  dsimp only
  fun_induction join parts qs with
  | case1 s t qs => simp [Part.value, String.append_assoc]
  | case2 => simp
  | case3 p parts qs _ ih =>
    rw [List.map_cons, String.join_cons, ih, List.map_cons, String.join_cons, String.append_assoc]

theorem opening_prefix_cons_iff {c : Char} :
    opening <+: c :: cs ↔ c = '\x7b' ∧ cs.head? = some '\x7b' := by
  rw [opening, pair_prefix_cons_iff, List.head?_eq_some_iff]

/-- Opening braces that begin in a text stand in it, or its last character is the first of them. -/
theorem beginsNowhere_opening_iff : BeginsNowhere opening literal rest ↔ ¬ opening <:+: literal ∧
    ¬ (literal.getLast? = some '\x7b' ∧ rest.head? = some '\x7b') := by
  induction literal with
  | nil => simp [beginsNowhere_nil, opening]
  | cons c literal ih =>
    rw [beginsNowhere_cons, ih, List.infix_cons_iff, not_or, opening_prefix_cons_iff,
      opening_prefix_cons_iff]
    cases literal with
    | nil => simp [opening]
    | cons d literal =>
      rw [List.getLast?_cons_cons, List.cons_append, List.head?_cons, List.head?_cons, and_assoc]

/-- Literal text in front is joined to what follows it. -/
theorem compileFrom_literal (pos : Nat) (h : BeginsNowhere opening literal cs) :
    compileFrom pos (literal ++ cs) =
      (compileFrom (pos + byteLength literal) cs).map (join (textPart literal)) := by
  rw [compileFrom_eq, compileFrom_eq, splitMarker_append h]
  -- no braces come about where the texts meet, so the first action is that of the second text
  rcases splitMarker cs with ⟨text, _ | body⟩
  · have hjoin : join (textPart literal) (textPart text ++ []) = textPart (literal ++ text) ++ [] :=
      join_textPart literal text nofun
    rw [List.append_nil, List.append_nil] at hjoin
    exact congrArg Except.ok hjoin.symm
  · dsimp only
    rw [byteLength_append, byteLength_append, ← Nat.add_assoc, ← Nat.add_assoc]
    cases lexAction (pos + byteLength literal + byteLength text)
        (pos + byteLength literal + byteLength text + 2) body with
    | error => rfl
    | ok l =>
      dsimp only [Except.bind]
      cases actionOf (pos + byteLength literal + byteLength text) l.tokens with
      | error => rfl
      | ok a =>
        dsimp only
        cases compileFrom (pos + byteLength literal + byteLength cs - byteLength l.rest) l.rest with
        | error => rfl
        | ok parts =>
          exact congrArg Except.ok (join_textPart literal text (by simp [Part.action?])).symm

/-- **Behind a text that can be compiled, another one is compiled on its own.** The induction is on the
text in front; the text behind it is reached when only literal text is left in front. -/
theorem compileFrom_append {as bs : List Char} (pos : Nat) (h : Written as parts)
    (hbraces : ¬ (as.getLast? = some '\x7b' ∧ bs.head? = some '\x7b')) :
    compileFrom pos (as ++ bs) = (compileFrom (pos + byteLength as) bs).map (join parts) := by
  induction h generalizing pos with
  | last hnone => exact compileFrom_literal pos (beginsNowhere_opening_iff.mpr ⟨hnone, hbraces⟩)
  | @next literal spelled rest a parts hfirst ha _ ih =>
    have hfirst' : BeginsNowhere opening literal (spelled ++ (rest ++ bs)) := by
      rw [beginsNowhere_opening_iff] at hfirst ⊢
      obtain ⟨_, _, _⟩ := ha
      exact hfirst
    have hbraces' : ¬ (rest.getLast? = some '\x7b' ∧ bs.head? = some '\x7b') := by
      intro hmeet
      apply hbraces
      rw [← List.append_assoc, List.getLast?_append, hmeet.1]
      exact ⟨rfl, hmeet.2⟩
    rw [List.append_assoc, List.append_assoc, compileFrom_next hfirst' ha, ih _ hbraces',
      byteLength_append, byteLength_append, ← Nat.add_assoc, ← Nat.add_assoc]
    cases compileFrom (pos + byteLength literal + byteLength spelled + byteLength rest) bs with
    | error => rfl
    | ok qs => exact congrArg Except.ok (join_action literal a parts qs).symm

theorem compile_eq (source : String) :
    compile source = (compileFrom 0 source.toList).map (Template.mk source) := by
  unfold compile
  cases compileFrom 0 source.toList <;> rfl

/-- **Templates are compiled piece by piece.** Behind a text that can be compiled any other text is
compiled as it would be alone, unless an opening brace at the end of the first meets one at the
beginning of the second. The actions are those of both, and both are rendered one behind the other. If
the second cannot be compiled, the error is the same but for the bytes in front of it. -/
theorem compile_append {a b : String} {ta : Template} (ha : compile a = .ok ta)
    (hbraces : ¬ (a.toList.getLast? = some '\x7b' ∧ b.toList.head? = some '\x7b')) :
    ((∃ t, compile (a ++ b) = .ok t) ↔ ∃ tb, compile b = .ok tb) ∧
    (∀ t tb, compile (a ++ b) = .ok t → compile b = .ok tb →
      t.actions = ta.actions ++ tb.actions ∧ ∀ r, t.render r = ta.render r ++ tb.render r) ∧
    ∀ e, compile b = .error e → compile (a ++ b) = .error (e.shift a.utf8ByteSize) := by
  obtain ⟨-, hwritten⟩ := compile_eq_ok_iff.mp ha
  have hjoined : compile (a ++ b) = (((compileFrom 0 b.toList).mapError
      (.shift a.utf8ByteSize)).map (join ta.parts)).map (Template.mk (a ++ b)) := by
    rw [compile_eq, String.toList_append, compileFrom_append 0 hwritten hbraces, Nat.zero_add,
      byteLength_toList, ← compileFrom_shift, Nat.add_zero]
  rw [hjoined, compile_eq b]
  cases compileFrom 0 b.toList with
  | error e =>
    refine ⟨by simp [Except.map, Except.mapError], nofun, ?_⟩
    intro e' he'
    cases he'
    rfl
  | ok parts =>
    refine ⟨by simp [Except.map, Except.mapError], ?_, nofun⟩
    intro t tb ht htb
    cases ht
    cases htb
    exact ⟨filterMap_action?_join ta.parts parts, render_join (a ++ b) ta.parts parts⟩

/-- Thirteen bytes that can be compiled, the last of them a brace. -/
def front : String := "ü\x7b\x7b path \x7d\x7d\x7b"

/-- A text with an action that is empty behind one that is not. -/
def back : String := "\x7d\x7b\x7bquery\x60q\x7d\x7d\x60\x7d\x7d\x7b\x7b \x7d\x7d"

/-- A brace that meets an action, and an error that moves by the bytes in front. -/
theorem compile_append_shifted :
    compile front = .ok ⟨front, [.text "ü", .action .path, .text "\x7b"]⟩ ∧
      ¬ (front.toList.getLast? = some '\x7b' ∧ back.toList.head? = some '\x7b') ∧
      compile back = .error (.emptyAction 15) ∧
      compile (front ++ back) = .error (.emptyAction (13 + 15)) := by
  have hfront : compile front = .ok ⟨front, [.text "ü", .action .path, .text "\x7b"]⟩ := by
    decide +kernel
  have hback : compile back = .error (.emptyAction 15) := by decide +kernel
  have hbraces : ¬ (front.toList.getLast? = some '\x7b' ∧ back.toList.head? = some '\x7b') := by
    decide
  obtain ⟨-, -, herror⟩ := compile_append hfront hbraces
  exact ⟨hfront, hbraces, hback, herror _ hback⟩

/-- Two braces that meet open an action. -/
example : compile "\x7b" = .ok ⟨"\x7b", [.text "\x7b"]⟩ ∧
    compile ("\x7b" ++ "\x7b") = .error (.unclosedAction 0) := by
  decide +kernel

end EdgeInclude.Template
