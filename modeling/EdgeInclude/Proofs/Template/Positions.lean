import EdgeInclude.Proofs.Template.Joining
import EdgeInclude.Proofs.Template.Offsets

/-!
# Where templates are at fault

An error that has an offset has that of its fault: of the opening braces of an action that does not end
or that has nothing in it, or of the quote in front of an argument that does not end.

* **`StaysOpen`**: how far an action can be read without coming to closing braces.
* **`Fault`**: what can be wrong with an action. **`readAction_eq_error_iff`**: that is what is said.
* **`BeginsAt`**: an action begins in a source, and what stands in front of it can be compiled.
  **`compileFrom_eq_error_iff`**: an error is that of the first action which has one.
* **`positions_point_at_faults`**: an offset and what stands there.
-/

namespace EdgeInclude.Template

/-- Where in the source the fault is, for the errors that say so. -/
def CompileError.offset? : CompileError → Option Nat
  | unclosedAction offset | emptyAction offset | unterminatedString offset => some offset
  | unknownFunction _ | arity _ _ _ | unexpectedToken _ => none

/-- No closing braces stand in a text before what it ends with, other than between the two quotes of an
argument, and every argument that begins before it ends before it too. -/
inductive StaysOpen (stop : List Char) : List Char → Prop
  | here : StaysOpen stop stop
  | outside {c : Char} {cs : List Char} (hquote : isQuote c = false)
      (hclosing : ¬ closing <+: c :: cs) (h : StaysOpen stop cs) : StaysOpen stop (c :: cs)
  | argument {quote : Char} {body cs : List Char} (hquote : isQuote quote = true)
      (hbody : quote ∉ body) (h : StaysOpen stop cs) :
      StaysOpen stop (quote :: (body ++ quote :: cs))

/-- What can be wrong with an action that begins at an offset, as far as its place is told: there are
no closing braces, there is nothing but white space before them, or an argument does not end. -/
inductive Fault (start : Nat) : List Char → CompileError → Prop
  | unclosed {body : List Char} (hopen : StaysOpen [] body) :
      Fault start body (.unclosedAction start)
  | empty {gap rest : List Char} (hgap : IsGap gap) :
      Fault start (gap ++ (closing ++ rest)) (.emptyAction start)
  | unterminated {before after : List Char} {quote : Char} (hquote : isQuote quote = true)
      (hafter : quote ∉ after) (hopen : StaysOpen (quote :: after) (before ++ quote :: after)) :
      Fault start (before ++ quote :: after) (.unterminatedString (start + 2 + byteLength before))

variable {cs stop body front inner after word rest : List Char} {c quote : Char} {ts : List Token}
variable {start pos offset : Nat} {e : CompileError}

/-! ## Actions that stay open

An action is read up to its closing braces, which do not count between quotes. So reading stops at
the end of the text or at a quote that is never closed. -/

theorem map_eq_error_iff {ε α β : Type} {x : Except ε α} {f : α → β} {e : ε} :
    x.map f = .error e ↔ x = .error e := by
  cases x <;> simp [Except.map]

/-- A word closes no action. -/
theorem StaysOpen.word_append (hword : IsWord word cs) (h : StaysOpen stop cs) :
    StaysOpen stop (word ++ cs) := by
  induction word with
  | nil => exact h
  | cons c word ih =>
    obtain ⟨-, hquote, hclosing, hword⟩ := isWord_cons.mp hword
    exact .outside hquote hclosing (ih hword)

/-- A character outside of arguments makes no difference to what is wrong behind it. -/
theorem lexAction_outside (hquote : isQuote c = false) (hclosing : ¬ closing <+: c :: cs) :
    lexAction start pos (c :: cs) = .error e ↔
      lexAction start (pos + c.utf8Size) cs = .error e := by
  by_cases hblank : Text.isBlank c = true
  · rw [lexAction_blank hblank]
  obtain ⟨hcs, hword⟩ := takeWord_spec cs
  generalize (takeWord cs).1 = word at hcs hword
  generalize (takeWord cs).2 = rest at hcs hword
  subst hcs
  have hcons : IsWord (c :: word) rest :=
    isWord_cons.mpr ⟨Bool.not_eq_true _ ▸ hblank, hquote, hclosing, hword⟩
  rw [← List.cons_append, lexAction_word (List.cons_ne_nil _ _) hcons, map_eq_error_iff,
    byteLength_cons, ← Nat.add_assoc]
  by_cases hne : word = []
  · subst hne
    rfl
  · rw [lexAction_word hne hword, map_eq_error_iff]

/-- What is wrong with an action that stays open is what is wrong where the reading of it stops. -/
theorem StaysOpen.exists_append (h : StaysOpen stop cs) : ∃ before, cs = before ++ stop ∧
    ∀ start pos e, lexAction start pos cs = .error e ↔
      lexAction start (pos + byteLength before) stop = .error e := by
  induction h with
  | here => exact ⟨[], rfl, fun _ _ _ => Iff.rfl⟩
  | @outside c cs hquote hclosing _ ih =>
    obtain ⟨before, rfl, hiff⟩ := ih
    refine ⟨c :: before, rfl, fun start pos e => ?_⟩
    rw [lexAction_outside hquote hclosing, hiff, byteLength_cons, Nat.add_assoc]
  | @argument quote body cs hquote hbody _ ih =>
    obtain ⟨before, rfl, hiff⟩ := ih
    refine ⟨quote :: (body ++ quote :: before), by simp, fun start pos e => ?_⟩
    have hlength : pos + byteLength (quote :: (body ++ quote :: before)) =
        pos + byteLength body + 2 + byteLength before := by
      rw [byteLength_cons, byteLength_append, byteLength_cons, utf8Size_of_isQuote hquote]
      omega
    rw [lexAction_quoted hquote hbody, map_eq_error_iff, hiff, hlength]

/-! ## What is wrong with an action

Three faults tell a place: the action is not closed, it is empty, or an argument in it does not end.
The others tell a name or a number. -/

/-- The action that begins at byte `start`, of what stands behind its opening braces. -/
def readAction (start : Nat) (body : List Char) : Except CompileError Action :=
  (lexAction start (start + 2) body).bind fun l => actionOf start l.tokens

/-- If the elements of an action cannot be read, the reading of them stops at the end of the text or
at a quote that stands alone. -/
theorem exists_stop_of_lexAction (h : lexAction start pos cs = .error e) :
    ∃ stop, StaysOpen stop cs ∧
      (stop = [] ∨ ∃ quote after, stop = quote :: after ∧ isQuote quote = true ∧ quote ∉ after) := by
  fun_induction lexAction start pos cs with
  | case1 => exact ⟨[], .here, .inl rfl⟩
  | case2 => cases h
  | case3 pos c cs hclosing hblank ih =>
    obtain ⟨stop, hopen, hstop⟩ := ih h
    have hquote := isQuote_eq_false_of_isBlank hblank
    exact ⟨stop, .outside hquote (not_closing_of_ends (.inl hblank)) hopen, hstop⟩
  | case4 pos c cs hclosing hblank hquote htake =>
    exact ⟨c :: cs, .here, .inr ⟨c, cs, rfl, hquote, takeQuoted_eq_none_iff.mp htake⟩⟩
  | case5 pos c cs hclosing hblank hquote body rest htake e' hlex ih =>
    cases h
    obtain ⟨rfl, hbody⟩ := takeQuoted_eq_some_iff.mp htake
    obtain ⟨stop, hopen, hstop⟩ := ih hlex
    exact ⟨stop, .argument hquote hbody hopen, hstop⟩
  | case6 => cases h
  | case7 pos c cs hclosing hblank hquote e' hlex ih =>
    cases h
    obtain ⟨hcs, hword⟩ := takeWord_spec cs
    obtain ⟨stop, hopen, hstop⟩ := ih hlex
    have hcs' : StaysOpen stop cs := by
      rw [hcs]
      exact hopen.word_append hword
    have hfirst : ¬ closing <+: c :: cs := not_pair_prefix_cons hclosing
    exact ⟨stop, .outside (Bool.not_eq_true _ ▸ hquote) hfirst hcs', hstop⟩
  | case8 => cases h

theorem lexAction_unterminated (hquote : isQuote quote = true) (hafter : quote ∉ after) :
    lexAction start pos (quote :: after) = .error (.unterminatedString pos) := by
  rw [lexAction_cons (not_closing_of_ends (.inr hquote)), isBlank_eq_false_of_isQuote hquote,
    if_neg Bool.false_ne_true, if_pos hquote, takeQuoted_eq_none_iff.mpr hafter]

/-- An action without elements is white space. -/
theorem lexes_nil_iff : Lexes cs [] rest ↔ ∃ gap, IsGap gap ∧ cs = gap ++ (closing ++ rest) := by
  constructor
  · intro h
    generalize hts : ([] : List Token) = ts at h
    induction h with
    | close rest => exact ⟨[], isGap_nil, rfl⟩
    | @blank c _ _ _ hc _ ih =>
      obtain ⟨gap, hgap, rfl⟩ := ih hts
      exact ⟨c :: gap, List.forall_mem_cons.mpr ⟨hc, hgap⟩, rfl⟩
    | quoted => cases hts
    | word => cases hts
  · rintro ⟨gap, hgap, rfl⟩
    exact lexes_gap hgap (.close rest)

/-- An error that does not move tells no place. -/
theorem offset?_eq_none_of_shift (h : e.shift 1 = e) : e.offset? = none := by
  cases e with
  | unclosedAction | emptyAction | unterminatedString =>
    injection h with h
    omega
  | unknownFunction | arity | unexpectedToken => rfl

/-- The elements of an action are at fault at a place that is told only if there are none. -/
theorem actionOf_error (h : actionOf start ts = .error e) :
    ts = [] ∧ e = .emptyAction start ∨ e.offset? = none := by
  unfold actionOf at h
  split at h
  · cases h
    exact .inl ⟨rfl, rfl⟩
  · cases h
    exact .inr rfl
  · split at h
    · split at h
      · rename_i hargs
        cases h
        exact .inr (offset?_eq_none_of_shift (shift_of_arguments 1 hargs))
      · exact .inr (offset?_eq_none_of_shift (shift_of_applyFunction 1 h))
    · cases h
      exact .inr rfl

/-- What reading the elements fails for is one of the faults. -/
theorem fault_of_lexAction (h : lexAction start (start + 2) body = .error e) :
    Fault start body e := by
  obtain ⟨stop, hopen, hstop⟩ := exists_stop_of_lexAction h
  obtain ⟨before, hbody, hiff⟩ := hopen.exists_append
  have herror := (hiff _ _ _).mp h
  rcases hstop with rfl | ⟨quote, after, rfl, hquote, hafter⟩
  · rw [lexAction_nil] at herror
    cases herror
    exact .unclosed hopen
  · rw [lexAction_unterminated hquote hafter] at herror
    cases herror
    subst hbody
    exact .unterminated hquote hafter hopen

/-- Each fault is told as it is. -/
theorem readAction_of_fault (h : Fault start body e) : readAction start body = .error e := by
  cases h with
  | unclosed hopen =>
    obtain ⟨before, -, hiff⟩ := hopen.exists_append
    rw [readAction, (hiff _ _ _).mpr lexAction_nil]
    rfl
  | empty hgap =>
    rw [readAction, lexAction_of_lexes (lexes_nil_iff.mpr ⟨_, hgap, rfl⟩)]
    rfl
  | @unterminated before after quote hquote hafter hopen =>
    obtain ⟨before', hbody, hiff⟩ := hopen.exists_append
    obtain rfl := List.append_cancel_right hbody
    rw [readAction, (hiff _ _ _).mpr (lexAction_unterminated hquote hafter)]
    rfl

/-- A fault with a place is told of just the actions that have it. -/
theorem readAction_eq_error_iff (hoffset : e.offset?.isSome) :
    readAction start body = .error e ↔ Fault start body e := by
  refine ⟨fun h => ?_, readAction_of_fault⟩
  rw [readAction] at h
  cases hlex : lexAction start (start + 2) body with
  | error e' =>
    rw [hlex] at h
    cases h
    exact fault_of_lexAction hlex
  | ok l =>
    rw [hlex] at h
    rcases actionOf_error h with ⟨htokens, rfl⟩ | hnone
    · have hlexes := lexes_of_lexAction hlex
      rw [htokens] at hlexes
      obtain ⟨gap, hgap, rfl⟩ := lexes_nil_iff.mp hlexes
      exact .empty hgap
    · rw [hnone] at hoffset
      cases hoffset

/-! ## Where actions begin

The text before a faulty action is written as a template is, and the action begins at its bytes. -/

/-- An action ends with a brace. -/
theorem getLast?_of_spells {a : Action} {spelled : List Char} (h : Spells a spelled) :
    spelled.getLast? = some '\x7d' := by
  obtain ⟨_, _, _⟩ := h
  simp only [List.getLast?_append]
  rfl

/-- A text with an action in it cannot be compiled if the action cannot be read, or if it can be and
what follows it cannot be compiled. -/
theorem compileFrom_eq_error_of_split {literal : List Char}
    (hsplit : splitMarker cs = (literal, some body)) : compileFrom pos cs = .error e ↔
      readAction (pos + byteLength literal) body = .error e ∨
      ∃ l a, lexAction (pos + byteLength literal) (pos + byteLength literal + 2) body = .ok l ∧
        actionOf (pos + byteLength literal) l.tokens = .ok a ∧
        compileFrom (pos + byteLength cs - byteLength l.rest) l.rest = .error e := by
  rw [compileFrom_eq, hsplit, readAction]
  dsimp only
  cases lexAction (pos + byteLength literal) (pos + byteLength literal + 2) body with
  | error e' => simp [Except.bind]
  | ok l =>
    dsimp only [Except.bind]
    cases haction : actionOf (pos + byteLength literal) l.tokens with
    | error e' => simp [haction]
    | ok a => simp [haction, map_eq_error_iff]

/-- The error of the first faulty action is that of the text. -/
theorem compileFrom_of_readAction {parts : List Part} (hfront : Written front parts)
    (hapart : front.getLast? ≠ some '\x7b')
    (h : readAction (pos + byteLength front) body = .error e) :
    compileFrom pos (front ++ (opening ++ body)) = .error e := by
  rw [compileFrom_append pos hfront fun hbraces => hapart hbraces.1, map_eq_error_iff]
  exact (compileFrom_eq_error_of_split (splitMarker_opening_append body)).mpr (.inl h)

/-- The induction is on the length of the text. Either its first action cannot be read, or what follows
that cannot be compiled, and then it is part of what stands in front of the one that cannot be read. -/
theorem exists_readAction_of_compileFrom (h : compileFrom pos cs = .error e) :
    ∃ front body parts, cs = front ++ (opening ++ body) ∧ Written front parts ∧
      front.getLast? ≠ some '\x7b' ∧ readAction (pos + byteLength front) body = .error e := by
  induction hlength : cs.length using Nat.strongRecOn generalizing pos cs with
  | ind length ih =>
    subst hlength
    rcases hsplit : splitMarker cs with ⟨literal, _ | body⟩
    · rw [compileFrom_eq, hsplit] at h
      cases h
    obtain ⟨hcs, hfirst⟩ := splitMarker_eq_some_iff.mp hsplit
    obtain ⟨hnone, hapart⟩ := beginsNowhere_opening_iff.mp hfirst
    -- the first action is at fault, or it is read and the fault is further on
    rcases (compileFrom_eq_error_of_split hsplit).mp h with hread | ⟨l, a, hlex, haction, hrest⟩
    · exact ⟨literal, body, textPart literal, hcs, .last hnone, fun hlast => hapart ⟨hlast, rfl⟩,
        hread⟩
    · have hlexes := lexes_of_lexAction hlex
      rw [actionOf_eq_ok_iff.mp haction] at hlexes
      obtain ⟨spelled, hspelled, hbody⟩ := lexes_tokens_iff.mp hlexes
      have hlt : l.rest.length < cs.length :=
        Nat.lt_trans (length_rest_lexAction_lt hlex) (length_splitMarker_lt hsplit)
      obtain ⟨front, body', parts, hrest', hfront, hapart', hread⟩ := ih _ hlt hrest rfl
      -- the rest begins behind the literal text and the action
      have hpos : pos + byteLength cs - byteLength l.rest + byteLength front =
          pos + byteLength (literal ++ (spelled ++ front)) := by
        rw [hcs, hbody]
        simp only [byteLength_append]
        omega
      refine ⟨literal ++ (spelled ++ front), body', _, ?_, .next ?_ hspelled hfront, ?_,
        hpos ▸ hread⟩
      · rw [hcs, hbody, hrest', List.append_assoc, List.append_assoc]
      · exact beginsNowhere_opening_iff.mpr ⟨hnone, fun hlast => hapart ⟨hlast.1, rfl⟩⟩
      · rw [List.getLast?_append, List.getLast?_append, getLast?_of_spells hspelled]
        cases hlast : front.getLast? with
        | none =>
          rw [Option.none_or, Option.some_or]
          decide
        | some c =>
          rw [Option.some_or, Option.some_or, ← hlast]
          exact hapart'

/-- **A text cannot be compiled just if there is an action in it which cannot be read, and everything
in front of that can be compiled.** -/
theorem compileFrom_eq_error_iff : compileFrom pos cs = .error e ↔
    ∃ front body parts, cs = front ++ (opening ++ body) ∧ Written front parts ∧
      front.getLast? ≠ some '\x7b' ∧ readAction (pos + byteLength front) body = .error e := by
  constructor
  · exact exists_readAction_of_compileFrom
  · rintro ⟨front, body, parts, rfl, hfront, hapart, h⟩
    exact compileFrom_of_readAction hfront hapart h

/-- An action begins at a byte offset of a source, and the text in front of it can be compiled on its
own. No other brace stands right in front. -/
structure BeginsAt (source : String) (offset : Nat) (front body : List Char) : Prop where
  cut : cutAt? offset source.toList = some (front, opening ++ body)
  compiles : ∃ t, compile (String.ofList front) = .ok t
  apart : front.getLast? ≠ some '\x7b'

variable {source : String}

/-- A fault with a place is that of the action that begins there. -/
theorem compile_eq_error_iff (hoffset : e.offset?.isSome) : compile source = .error e ↔
    ∃ start front body, BeginsAt source start front body ∧ Fault start body e := by
  have hcompile : compile source = .error e ↔ compileFrom 0 source.toList = .error e := by
    rw [compile_eq, map_eq_error_iff]
  rw [hcompile, compileFrom_eq_error_iff]
  constructor
  · rintro ⟨front, body, parts, hsource, hfront, hapart, hread⟩
    rw [Nat.zero_add, readAction_eq_error_iff hoffset] at hread
    have hcompiles : compile (String.ofList front) = .ok ⟨String.ofList front, parts⟩ :=
      compile_eq_ok_iff.mpr ⟨rfl, by rwa [String.toList_ofList]⟩
    exact ⟨byteLength front, front, body,
      ⟨cutAt?_eq_some_iff.mpr ⟨hsource, rfl⟩, ⟨_, hcompiles⟩, hapart⟩, hread⟩
  · rintro ⟨start, front, body, ⟨hcut, ⟨t, hcompiles⟩, hapart⟩, hfault⟩
    obtain ⟨hsource, rfl⟩ := cutAt?_eq_some_iff.mp hcut
    obtain ⟨-, hfront⟩ := compile_eq_ok_iff.mp hcompiles
    rw [String.toList_ofList] at hfront
    rw [← readAction_eq_error_iff hoffset, ← Nat.zero_add (byteLength front)] at hfault
    exact ⟨front, body, t.parts, hsource, hfront, hapart, hfault⟩

/-- A place in an action is one between two characters. -/
theorem BeginsAt.cut_within (h : BeginsAt source start front (inner ++ rest)) :
    cutAt? (start + 2 + byteLength inner) source.toList =
      some (front ++ (opening ++ inner), rest) := by
  obtain ⟨hsource, rfl⟩ := cutAt?_eq_some_iff.mp h.cut
  refine cutAt?_eq_some_iff.mpr ⟨by rw [hsource]; simp only [List.append_assoc], ?_⟩
  rw [byteLength_append, byteLength_append, ← Nat.add_assoc]
  rfl

/-- The place that is told of a fault is one between two characters. -/
theorem BeginsAt.isSome_cutAt? (h : BeginsAt source start front body) (hfault : Fault start body e)
    (hoffset : e.offset? = some offset) : (cutAt? offset source.toList).isSome := by
  cases hfault with
  | unclosed | empty =>
    cases hoffset
    exact Option.isSome_of_eq_some h.cut
  | unterminated =>
    cases hoffset
    exact Option.isSome_of_eq_some h.cut_within

/-- An argument does not end at the quote of it, which can be told by its place. -/
theorem exists_fault_unterminated_iff :
    (∃ start front body, BeginsAt source start front body ∧
      Fault start body (.unterminatedString offset)) ↔
    ∃ before quote after, cutAt? offset source.toList = some (before, quote :: after) ∧
      (quote = '"' ∨ quote = '\x60') ∧ quote ∉ after ∧
      ∃ start front body, BeginsAt source start front body ∧ StaysOpen (quote :: after) body := by
  constructor
  · rintro ⟨start, front, _, hbegins, hfault⟩
    cases hfault with
    | @unterminated inner after quote hquote hafter hopen =>
      exact ⟨_, quote, after, hbegins.cut_within, isQuote_iff.mp hquote, hafter,
        start, front, _, hbegins, hopen⟩
  · rintro ⟨before, quote, after, hcut, hquote, hafter, start, front, body, hbegins, hopen⟩
    obtain ⟨inner, rfl, -⟩ := hopen.exists_append
    obtain ⟨hsource, rfl⟩ := cutAt?_eq_some_iff.mp hcut
    obtain ⟨hsource', hlength⟩ := cutAt?_eq_some_iff.mp hbegins.cut_within
    obtain rfl := List.append_cancel_right (hsource.symm.trans hsource')
    rw [hlength]
    exact ⟨start, front, _, hbegins, .unterminated (isQuote_iff.mpr hquote) hafter hopen⟩

/-- **The offsets of errors point at faults.** A text is refused with an action that does not end, or
with one that is empty, at just the byte offset at which opening braces stand behind text that can be
compiled on its own, and either no closing braces follow them outside of arguments or only white space
stands before those that do. It is refused with an argument that does not end at just the byte offset
of the quote in front of that argument, which is part of such an action and does not occur behind it
again. An offset is always a position at which the text can be cut. Compiled by cuts at byte offsets,
each of which would fail anywhere else, the text comes out the same. -/
theorem positions_point_at_faults (source : String) :
    (∀ offset, compile source = .error (.unclosedAction offset) ↔
      ∃ front body, BeginsAt source offset front body ∧ StaysOpen [] body) ∧
    (∀ offset, compile source = .error (.emptyAction offset) ↔
      ∃ front gap rest, BeginsAt source offset front (gap ++ (closing ++ rest)) ∧ IsGap gap) ∧
    (∀ offset, compile source = .error (.unterminatedString offset) ↔
      ∃ before quote after, cutAt? offset source.toList = some (before, quote :: after) ∧
        (quote = '"' ∨ quote = '\x60') ∧ quote ∉ after ∧
        ∃ start front body, BeginsAt source start front body ∧ StaysOpen (quote :: after) body) ∧
    (∀ e offset, compile source = .error e → e.offset? = some offset →
      (String.Pos.Raw.mk offset).IsValid source) ∧
    cutCompile? source = some (compile source) := by
  refine ⟨fun offset => ?_, fun offset => ?_, fun offset => ?_, fun e offset h hoffset => ?_,
    cutCompile?_eq source⟩
  · rw [compile_eq_error_iff rfl]
    constructor
    · rintro ⟨start, front, body, hbegins, hfault⟩
      cases hfault with
      | unclosed hopen => exact ⟨front, body, hbegins, hopen⟩
    · rintro ⟨front, body, hbegins, hopen⟩
      exact ⟨offset, front, body, hbegins, .unclosed hopen⟩
  · rw [compile_eq_error_iff rfl]
    constructor
    · rintro ⟨start, front, body, hbegins, hfault⟩
      cases hfault with
      | @empty gap rest hgap => exact ⟨front, gap, rest, hbegins, hgap⟩
    · rintro ⟨front, gap, rest, hbegins, hgap⟩
      exact ⟨offset, front, _, hbegins, .empty hgap⟩
  · rw [compile_eq_error_iff rfl]
    exact exists_fault_unterminated_iff
  · obtain ⟨start, front, body, hbegins, hfault⟩ :=
      -- whatever the fault, its place is cut out of the text behind whole characters
      (compile_eq_error_iff (Option.isSome_of_eq_some hoffset)).mp h
    exact isSome_cutAt?_iff.mp (hbegins.isSome_cutAt? hfault hoffset)

/-- Fifteen bytes that can be compiled, with an action among them, and then an action that does not end.
Closing braces stand in its argument only. -/
def openEnded : String := "ü\x7b\x7b path \x7d\x7d€\x7b\x7b header \x60ß\x7d\x7d\x60 \x7d"

/-- The same fifteen bytes, and then an action with two kinds of white space in it. -/
def hollow : String := "ü\x7b\x7b path \x7d\x7d€\x7b\x7b \u00a0\x7d\x7d\x7d"

/-- The same fifteen bytes, and then an argument that does not end, with an empty one in it. -/
def loneQuote : String := "ü\x7b\x7b path \x7d\x7d€\x7b\x7b header \"\x60\x60\x7d\x7dß"

/-- Three texts, each with one of the faults behind an action. -/
theorem positions_point_at_faults_behind_action :
    (compile openEnded = .error (.unclosedAction 15) ∧
      ∃ front body, BeginsAt openEnded 15 front body ∧ StaysOpen [] body) ∧
    (compile hollow = .error (.emptyAction 15) ∧
      ∃ front gap rest, BeginsAt hollow 15 front (gap ++ (closing ++ rest)) ∧ IsGap gap) ∧
    (compile loneQuote = .error (.unterminatedString 25) ∧
      (CompileError.unterminatedString 25).offset? = some 25 ∧
      (String.Pos.Raw.mk 25).IsValid loneQuote ∧
      ∃ before quote after, cutAt? 25 loneQuote.toList = some (before, quote :: after) ∧
        (quote = '"' ∨ quote = '\x60') ∧ quote ∉ after) := by
  have hopen : compile openEnded = .error (.unclosedAction 15) := by decide +kernel
  have hempty : compile hollow = .error (.emptyAction 15) := by decide +kernel
  have hlone : compile loneQuote = .error (.unterminatedString 25) := by decide +kernel
  obtain ⟨hunclosed, -⟩ := positions_point_at_faults openEnded
  obtain ⟨-, hhollow, -⟩ := positions_point_at_faults hollow
  obtain ⟨-, -, hquote, hvalid, -⟩ := positions_point_at_faults loneQuote
  obtain ⟨before, quote, after, hcut, hmark, hafter, -⟩ := (hquote 25).mp hlone
  exact ⟨⟨hopen, (hunclosed 15).mp hopen⟩, ⟨hempty, (hhollow 15).mp hempty⟩, hlone, rfl,
    hvalid _ 25 hlone rfl, before, quote, after, hcut, hmark, hafter⟩

end EdgeInclude.Template
