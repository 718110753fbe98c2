import EdgeInclude.Proofs.Template.Lexing

/-!
# The grammar of templates

A template is literal text with actions in it. Each literal text runs up to the next opening braces,
and each action is the name of its function with its arguments behind it, every argument between two
quotes, and white space wherever it likes.

* **`Spells`**: an action as it is written. **`lexes_tokens_iff`**: it is read as its function and
  its arguments.
* **`Written`**: a text as literal text and actions in turn. **`compileFrom_eq_ok_iff`**: compiling
  it gives just these.
* **`compile_recognises_grammar`**: what can be compiled, what comes of it, and how that renders.
-/

namespace EdgeInclude

namespace Action

/-- The function that an action calls. -/
def function : Action → String
  | header _ => "header"
  | query _ => "query"
  | param _ => "param"
  | path => "path"
  | method => "method"
  | requestId => "request_id"

/-- The texts that an action gives to its function. -/
def arguments : Action → List String
  | header name | query name | param name => [name]
  | path | method | requestId => []

/-- The elements that an action is made of. -/
def tokens (a : Action) : List Template.Token :=
  .word a.function.toList :: a.arguments.map fun arg => .quoted arg.toList

end Action

namespace Template

/-! ## Actions as they are written

An action can be written in many ways. Read back, all of them give the same elements. -/

/-- White space, or nothing. -/
def IsGap (cs : List Char) : Prop :=
  ∀ c ∈ cs, Text.isBlank c = true

/-- Arguments as they are written: one behind the other, each between two double quotes or two
backquotes that do not occur in it, and with white space in front. -/
inductive SpellsArguments : List String → List Char → Prop
  | nil : SpellsArguments [] []
  | cons {gap body cs : List Char} {quote : Char} {args : List String} (hgap : IsGap gap)
      (hquote : quote = '"' ∨ quote = '\x60') (hbody : quote ∉ body)
      (h : SpellsArguments args cs) :
      SpellsArguments (String.ofList body :: args) (gap ++ quote :: (body ++ quote :: cs))

/-- An action as it is written: its function and its arguments between double braces, with white
space around them. -/
inductive Spells (a : Action) : List Char → Prop
  | mk {before args after : List Char} (hbefore : IsGap before)
      (hargs : SpellsArguments a.arguments args) (hafter : IsGap after) :
      Spells a (opening ++ (before ++ (a.function.toList ++ (args ++ (after ++ closing)))))

variable {a : Action} {args : List String} {ts : List Token} {parts : List Part}
variable {cs rest spelled gap after word literal : List Char} {start pos : Nat}

theorem isQuote_iff {c : Char} : isQuote c = true ↔ c = '"' ∨ c = '\x60' := by
  rw [isQuote, Bool.or_eq_true, decide_eq_true_eq, decide_eq_true_eq]

theorem isGap_nil : IsGap [] :=
  fun _ hc => absurd hc List.not_mem_nil

/-- White space is passed over. -/
theorem lexes_gap (hgap : IsGap gap) (h : Lexes cs ts rest) : Lexes (gap ++ cs) ts rest := by
  induction gap with
  | nil => exact h
  | cons c gap ih =>
    obtain ⟨hc, hgap⟩ := List.forall_mem_cons.mp hgap
    exact .blank hc (ih hgap)

/-- Written arguments give one element each. -/
theorem lexes_arguments (h : SpellsArguments args spelled) (hafter : IsGap after) :
    Lexes (spelled ++ (after ++ (closing ++ rest))) (args.map fun arg => .quoted arg.toList)
      rest := by
  induction h with
  | nil =>
    rw [List.nil_append]
    exact lexes_gap hafter (.close rest)
  | @cons gap body cs quote args hgap hquote hbody _ ih =>
    have hlexes := lexes_gap hgap (.quoted (isQuote_iff.mpr hquote) hbody ih)
    simpa using hlexes

/-- White space in front of the first argument belongs to it, and else to the closing braces. -/
theorem exists_spelling_of_blank {c : Char} (hc : Text.isBlank c = true)
    (h : ∃ spelled after, SpellsArguments args spelled ∧ IsGap after ∧
      cs = spelled ++ (after ++ (closing ++ rest))) :
    ∃ spelled after, SpellsArguments args spelled ∧ IsGap after ∧
      c :: cs = spelled ++ (after ++ (closing ++ rest)) := by
  obtain ⟨spelled, after, hspelled, hafter, rfl⟩ := h
  cases hspelled with
  | nil => exact ⟨[], c :: after, .nil, List.forall_mem_cons.mpr ⟨hc, hafter⟩, rfl⟩
  | @cons gap body cs quote args hgap hquote hbody h =>
    exact ⟨c :: gap ++ quote :: (body ++ quote :: cs), after,
      .cons (List.forall_mem_cons.mpr ⟨hc, hgap⟩) hquote hbody h, hafter, by simp⟩

/-- Elements that are arguments were written so. -/
theorem exists_spelling_of_lexes (h : Lexes cs ts rest)
    (hts : ts = args.map fun arg => .quoted arg.toList) :
    ∃ spelled after, SpellsArguments args spelled ∧ IsGap after ∧
      cs = spelled ++ (after ++ (closing ++ rest)) := by
  induction h generalizing args with
  | close rest =>
    obtain rfl := List.map_eq_nil_iff.mp hts.symm
    exact ⟨[], [], .nil, isGap_nil, rfl⟩
  | blank hc _ ih => exact exists_spelling_of_blank hc (ih hts)
  | @quoted quote body cs rest ts hquote hbody _ ih =>
    cases args with
    | nil => cases hts
    | cons arg args =>
      rw [List.map_cons, List.cons.injEq, Token.quoted.injEq] at hts
      obtain ⟨rfl, hts⟩ := hts
      obtain ⟨spelled, after, hspelled, hafter, rfl⟩ := ih hts
      have hcons := SpellsArguments.cons isGap_nil (isQuote_iff.mp hquote) hbody hspelled
      rw [String.ofList_toList] at hcons
      exact ⟨quote :: (arg.toList ++ quote :: spelled), after, hcons, hafter, by simp⟩
  | word =>
    cases args with
    | nil => cases hts
    | cons => cases hts

/-- A word that was read has white space in front of it at most. -/
theorem exists_word_of_lexes (h : Lexes cs (.word word :: ts) rest) :
    ∃ before cs', cs = before ++ (word ++ cs') ∧ IsGap before ∧ Lexes cs' ts rest := by
  generalize hts : Token.word word :: ts = ts' at h
  induction h with
  | close => cases hts
  | @blank c _ _ _ hc _ ih =>
    obtain ⟨before, cs', rfl, hbefore, hlexes⟩ := ih hts
    exact ⟨c :: before, cs', rfl, List.forall_mem_cons.mpr ⟨hc, hbefore⟩, hlexes⟩
  | quoted => cases hts
  | @word _ cs _ _ _ _ h =>
    cases hts
    exact ⟨[], cs, rfl, isGap_nil, h⟩

theorem endsWord_gap (hgap : IsGap gap) (h : EndsWord cs) : EndsWord (gap ++ cs) := by
  cases gap with
  | nil => exact h
  | cons c gap => exact .inr (.inr ⟨c, rfl, .inl (hgap c List.mem_cons_self)⟩)

/-- Behind the name of a function a word ends: what comes there is white space, a quote or closing
braces. -/
theorem endsWord_of_spelled (h : SpellsArguments args spelled) (hafter : IsGap after) :
    EndsWord (spelled ++ (after ++ (closing ++ rest))) := by
  cases h with
  | nil =>
    rw [List.nil_append]
    exact endsWord_gap hafter (.inr (.inl (List.prefix_append closing rest)))
  | @cons _ _ _ quote _ hgap hquote _ _ =>
    rw [List.append_assoc]
    exact endsWord_gap hgap (.inr (.inr ⟨quote, rfl, .inr (isQuote_iff.mpr hquote)⟩))

/-- The name of a function holds no white space and no quote. -/
theorem of_mem_function {c : Char} (hc : c ∈ a.function.toList) :
    Text.isBlank c = false ∧ isQuote c = false := by
  have hall : (a.function.toList.all fun c => !(Text.isBlank c || isQuote c)) = true := by
    cases a <;> simp only [Action.function] <;> decide
  have h := List.all_eq_true.mp hall c hc
  rwa [Bool.not_eq_true', Bool.or_eq_false_iff] at h

/-- The name of a function is one word. -/
theorem isWord_function (h : EndsWord cs) : IsWord a.function.toList cs where
  isBlank_eq_false _ hc := (of_mem_function hc).1
  isQuote_eq_false _ hc := (of_mem_function hc).2
  closing_nowhere :=
    beginsNowhere_of_notMem (by cases a <;> simp only [Action.function] <;> decide)
  ends := h

/-- **An action as it is written is read as its function and arguments, and nothing else is.** -/
theorem lexes_tokens_iff :
    Lexes cs a.tokens rest ↔ ∃ spelled, Spells a spelled ∧ opening ++ cs = spelled ++ rest := by
  constructor
  · intro h
    obtain ⟨before, cs', rfl, hbefore, hlexes⟩ := exists_word_of_lexes h
    obtain ⟨args, after, hargs, hafter, rfl⟩ := exists_spelling_of_lexes hlexes rfl
    exact ⟨_, .mk hbefore hargs hafter, by simp⟩
  · rintro ⟨spelled, ⟨hbefore, hargs, hafter⟩, hcs⟩
    rw [List.append_assoc] at hcs
    obtain rfl := List.append_cancel_left hcs
    have hname : a.function.toList ≠ [] := by cases a <;> simp only [Action.function] <;> decide
    have hlexes : Lexes _ _ rest := lexes_arguments hargs hafter
    have hword := Lexes.word hname (isWord_function (endsWord_of_spelled hargs hafter)) hlexes
    simpa [Action.tokens] using lexes_gap hbefore hword

/-! ## Functions and arguments

The first element has to name a function and the others have to be as many arguments as it takes. -/

/-- Arguments are taken for what they are. -/
theorem arguments_map (args : List String) :
    Template.arguments (args.map fun arg => .quoted arg.toList) = .ok args := by
  induction args with
  | nil => rfl
  | cons arg args ih => rw [List.map_cons, Template.arguments, ih, String.ofList_toList]

/-- What is taken for arguments are arguments. -/
theorem eq_map_of_arguments (h : Template.arguments ts = .ok args) :
    ts = args.map fun arg => .quoted arg.toList := by
  fun_induction Template.arguments ts generalizing args with
  | case1 =>
    cases h
    rfl
  | case2 => cases h
  | case3 => cases h
  | case4 cs ts args' hrest ih =>
    cases h
    rw [List.map_cons, String.toList_ofList, ih hrest]

/-- A function is applied to its own number of arguments. -/
theorem applyFunction_eq_ok_iff {name : String} :
    applyFunction name args = .ok a ↔ name = a.function ∧ args = a.arguments := by
  constructor
  · intro h
    unfold applyFunction at h
    simp only at h
    split at h
    all_goals
      first
      | split at h <;> cases h <;> exact ⟨rfl, rfl⟩
      | cases h
  · rintro ⟨rfl, rfl⟩
    cases a <;> rfl

/-- Elements give the action that is made of them. -/
theorem actionOf_eq_ok_iff : actionOf start ts = .ok a ↔ ts = a.tokens := by
  have hname : a.function.toList.all isNameChar = true := by
    cases a <;> simp only [Action.function] <;> decide
  constructor
  · intro h
    unfold actionOf at h
    split at h
    · cases h
    · cases h
    · rename_i cs ts'
      split at h
      · split at h
        · cases h
        · rename_i args hargs
          obtain ⟨hfunction, rfl⟩ := applyFunction_eq_ok_iff.mp h
          rw [eq_map_of_arguments hargs, Action.tokens, ← hfunction, String.toList_ofList]
      · cases h
  · rintro rfl
    rw [Action.tokens, actionOf, if_pos hname, arguments_map, String.ofList_toList]
    exact applyFunction_eq_ok_iff.mpr ⟨rfl, rfl⟩

/-! ## Literal text and actions in turn

The induction goes with the text: literal text up to the next action, the action, and the rest. -/

/-- A text as literal text and actions in turn. Each literal text runs up to the next opening
braces, or to the end if there are none, and is left out where it is empty. -/
inductive Written : List Char → List Part → Prop
  | last {literal : List Char} (hnone : ¬ opening <:+: literal) :
      Written literal (textPart literal)
  | next {literal spelled rest : List Char} {a : Action} {parts : List Part}
      (hfirst : BeginsNowhere opening literal (spelled ++ rest)) (ha : Spells a spelled)
      (h : Written rest parts) :
      Written (literal ++ (spelled ++ rest)) (textPart literal ++ .action a :: parts)

/-- Compiling takes the literal text in front, then an action, and goes on with what follows it. -/
theorem compileFrom_eq (pos : Nat) (cs : List Char) : compileFrom pos cs =
    match splitMarker cs with
    | (literal, none) => .ok (textPart literal)
    | (literal, some body) =>
      (lexAction (pos + byteLength literal) (pos + byteLength literal + 2) body).bind fun l =>
        (actionOf (pos + byteLength literal) l.tokens).bind fun a =>
          (compileFrom (pos + byteLength cs - byteLength l.rest) l.rest).map fun parts =>
            textPart literal ++ .action a :: parts := by
  rw [compileFrom]
  split
  · rename_i hsplit
    rw [hsplit]
  · rename_i literal body hsplit
    rw [hsplit]
    dsimp only
    split
    · rename_i hlex
      rw [hlex]
      rfl
    · rename_i l hlex
      rw [hlex]
      simp only [Except.bind]
      cases actionOf (pos + byteLength literal) l.tokens with
      | error => rfl
      | ok a => cases compileFrom (pos + byteLength cs - byteLength l.rest) l.rest <;> rfl

theorem compileFrom_last (h : ¬ opening <:+: literal) :
    compileFrom pos literal = .ok (textPart literal) := by
  rw [compileFrom_eq, splitMarker_eq_none_iff.mpr ⟨rfl, h⟩]

/-- An action is compiled where it is spelled, and then what follows it. -/
theorem compileFrom_next (hfirst : BeginsNowhere opening literal (spelled ++ rest))
    (ha : Spells a spelled) : compileFrom pos (literal ++ (spelled ++ rest)) =
      (compileFrom (pos + byteLength literal + byteLength spelled) rest).map fun parts =>
        textPart literal ++ .action a :: parts := by
  obtain ⟨body, hbody⟩ : ∃ body, opening ++ body = spelled ++ rest := by
    obtain ⟨_, _, _⟩ := ha
    exact ⟨_, (List.append_assoc _ _ _).symm⟩
  have hsplit : splitMarker (literal ++ (spelled ++ rest)) = (literal, some body) :=
    splitMarker_eq_some_iff.mpr ⟨by rw [hbody], by rw [hbody]; exact hfirst⟩
  have hlexes := lexes_tokens_iff.mpr ⟨spelled, ha, hbody⟩
  have hpos : pos + byteLength (literal ++ (spelled ++ rest)) - byteLength rest =
      pos + byteLength literal + byteLength spelled := by
    rw [byteLength_append, byteLength_append]
    omega
  rw [compileFrom_eq, hsplit]
  simp only [lexAction_of_lexes hlexes, Except.bind, actionOf_eq_ok_iff.mpr rfl, hpos]

/-- What is compiled was written so. -/
theorem written_of_compileFrom (h : compileFrom pos cs = .ok parts) : Written cs parts := by
  fun_induction compileFrom pos cs generalizing parts with
  | case1 pos cs literal hsplit =>
    cases h
    obtain ⟨rfl, hnone⟩ := splitMarker_eq_none_iff.mp hsplit
    exact .last hnone
  | case2 => cases h
  | case3 => cases h
  | case4 => cases h
  | case5 pos cs literal body hsplit start l hl a ha parts' hrest =>
    rename_i ih
    cases h
    obtain ⟨rfl, hfirst⟩ := splitMarker_eq_some_iff.mp hsplit
    have hlexes := lexAction_eq_ok_iff.mp hl
    rw [actionOf_eq_ok_iff.mp ha] at hlexes
    obtain ⟨spelled, hspelled, hbody⟩ := lexes_tokens_iff.mp hlexes
    rw [hbody] at hfirst ⊢
    exact .next hfirst hspelled (ih hrest)

/-- What is written is compiled so. -/
theorem compileFrom_of_written (h : Written cs parts) : compileFrom pos cs = .ok parts := by
  induction h generalizing pos with
  | last hnone => exact compileFrom_last hnone
  | next hfirst ha _ ih =>
    rw [compileFrom_next hfirst ha, ih]
    rfl

/-- **Compiling gives the literal texts and the actions of a text.** -/
theorem compileFrom_eq_ok_iff (pos : Nat) : compileFrom pos cs = .ok parts ↔ Written cs parts :=
  ⟨written_of_compileFrom, compileFrom_of_written⟩

/-! ## What a template is made of

Parts are literal texts and actions in turn, so a template has actions exactly where its text has
opening braces. -/

theorem opening_prefix_of_spells (h : Spells a spelled) : opening <+: spelled := by
  cases h
  exact List.prefix_append opening _

/-- No part is empty text. -/
theorem Written.notMem_empty (h : Written cs parts) : Part.text "" ∉ parts := by
  have htext (literal : List Char) : Part.text "" ∉ textPart literal := by
    cases literal <;> simp [textPart]
  induction h with
  | last => exact htext _
  | next _ _ _ ih => simp [htext, ih]

/-- Of any two parts next to each other one is an action. -/
theorem Written.isChain (h : Written cs parts) :
    parts.IsChain fun p q => p.action?.isSome ∨ q.action?.isSome := by
  induction h with
  | @last literal => cases literal <;> simp [textPart]
  | @next literal _ _ a parts _ _ _ ih =>
    have hcons : (Part.action a :: parts).IsChain
        fun p q => p.action?.isSome ∨ q.action?.isSome := by
      cases parts with
      | nil => exact .singleton _
      | cons => exact List.isChain_cons_cons.mpr ⟨.inl rfl, ih⟩
    cases literal with
    | nil => exact hcons
    | cons => exact List.isChain_cons_cons.mpr ⟨.inr rfl, hcons⟩

/-- There is an action exactly if there are opening braces. -/
theorem Written.filterMap_action?_ne_nil_iff (h : Written cs parts) :
    parts.filterMap Part.action? ≠ [] ↔ opening <:+: cs := by
  cases h with
  | @last _ hnone => cases cs <;> simp [textPart, Part.action?, hnone]
  | @next literal _ rest _ _ _ ha =>
    refine iff_of_true (by simp [Part.action?]) ?_
    exact ((opening_prefix_of_spells ha).trans (List.prefix_append _ rest)).isInfix.trans
      (List.suffix_append literal _).isInfix

theorem render_textPart (source : String) (r : Request) :
    render ⟨source, textPart source.toList⟩ r = source := by
  rw [← String.toList_inj, render, String.toList_join, List.flatMap_map]
  cases source.toList <;> simp [textPart, Part.value]

/-- A text is compiled as it is written. -/
theorem compile_eq_ok_iff {source : String} {t : Template} :
    compile source = .ok t ↔ t.source = source ∧ Written source.toList t.parts := by
  rw [← compileFrom_eq_ok_iff 0, compile]
  cases compileFrom 0 source.toList with
  | error => simp
  | ok parts =>
    rw [Except.ok.injEq, Except.ok.injEq]
    constructor
    · rintro rfl
      exact ⟨rfl, rfl⟩
    · rintro ⟨rfl, rfl⟩
      rfl

/-- **Just the texts of the grammar are templates, and nothing of them is lost.** A text is compiled
if it is literal text and actions in turn, and to just these: there is no empty literal text, and no
two stand next to each other. The text itself is kept. There is an action if there are opening
braces, and a template renders as its literal texts and the values of its actions, one behind the
other; so a text without opening braces renders as itself. -/
theorem compile_recognises_grammar (source : String) :
    ((∃ t, compile source = .ok t) ↔ ∃ parts, Written source.toList parts) ∧
    (∀ t, compile source = .ok t →
      Written source.toList t.parts ∧
      (∀ parts, Written source.toList parts → parts = t.parts) ∧
      Part.text "" ∉ t.parts ∧
      t.parts.IsChain (fun p q => p.action?.isSome ∨ q.action?.isSome) ∧
      t.source = source ∧ toString t = source ∧
      (t.actions ≠ [] ↔ opening <:+: source.toList) ∧
      ∀ r, (t.render r).toList = t.parts.flatMap fun part =>
        match part with
        | .text literal => literal.toList
        | .action a => (a.value r).toList) ∧
    (¬ opening <:+: source.toList → ∃ t, compile source = .ok t ∧ ∀ r, t.render r = source) := by
  refine ⟨?_, fun t h => ?_, fun hnone => ?_⟩
  · constructor
    · rintro ⟨t, h⟩
      exact ⟨t.parts, (compile_eq_ok_iff.mp h).2⟩
    · rintro ⟨parts, h⟩
      exact ⟨⟨source, parts⟩, compile_eq_ok_iff.mpr ⟨rfl, h⟩⟩
  · obtain ⟨hsource, hwritten⟩ := compile_eq_ok_iff.mp h
    refine ⟨hwritten, fun parts hparts => ?_, hwritten.notMem_empty, hwritten.isChain, hsource,
      hsource, hwritten.filterMap_action?_ne_nil_iff, fun r => ?_⟩
    · -- other parts would be compiled as well, and compiling gives one result
      have hagain : compile source = .ok ⟨source, parts⟩ := compile_eq_ok_iff.mpr ⟨rfl, hparts⟩
      rw [h] at hagain
      cases hagain
      rfl
    · rw [render, String.toList_join, List.flatMap_map]
      congr
      funext part
      cases part <;> rfl
  · exact ⟨⟨source, textPart source.toList⟩, compile_eq_ok_iff.mpr ⟨rfl, .last hnone⟩,
      render_textPart source⟩

/-- Braces between quotes belong to the argument, and white space can be left out. -/
example : compile "a\x7b\x7bheader\"x\x7d\x7dy\"\x7d\x7d\x7d" =
    .ok ⟨"a\x7b\x7bheader\"x\x7d\x7dy\"\x7d\x7d\x7d",
      [.text "a", .action (.header "x\x7d\x7dy"), .text "\x7d"]⟩ := by
  decide +kernel

end Template

end EdgeInclude
