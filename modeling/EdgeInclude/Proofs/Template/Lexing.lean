import Mathlib.Data.List.Infix
import EdgeInclude.Template.Parser

/-!
# Elements of an action

What is taken off the front of a text while a template is compiled: literal text up to opening
braces, and the elements of an action up to closing braces.

* **`BeginsNowhere`**: a mark begins nowhere in a text. **`splitMarker_eq_some_iff`**.
* **`Lexes`**: the elements that stand before closing braces. **`lexAction_eq_ok_iff`**: an action
  is read as just these, wherever in the source it stands.
-/

namespace EdgeInclude.Template

/-- The braces that open an action. -/
def opening : List Char := ['\x7b', '\x7b']

/-- The braces that close an action. -/
def closing : List Char := ['\x7d', '\x7d']

/-- The mark begins nowhere in `text` when `rest` stands behind it. -/
def BeginsNowhere (mark text rest : List Char) : Prop :=
  ∀ tail, tail <:+ text → tail ≠ [] → ¬ mark <+: tail ++ rest

variable {mark text rest body word cs : List Char} {c quote : Char}

theorem beginsNowhere_nil : BeginsNowhere mark [] rest :=
  fun _ htail hne => absurd (List.suffix_nil.mp htail) hne

/-- A mark begins nowhere in a text if not at the first character, nor in the others. -/
theorem beginsNowhere_cons : BeginsNowhere mark (c :: text) rest ↔
    ¬ mark <+: c :: (text ++ rest) ∧ BeginsNowhere mark text rest := by
  constructor
  · intro h
    exact ⟨h (c :: text) List.suffix_rfl (List.cons_ne_nil _ _),
      fun tail htail hne => h tail (htail.trans (List.suffix_cons _ _)) hne⟩
  · rintro ⟨hfirst, h⟩ tail htail hne
    rcases List.suffix_cons_iff.mp htail with rfl | htail
    · exact hfirst
    · exact h tail htail hne

/-- A mark whose first character is missing begins nowhere. -/
theorem beginsNowhere_of_notMem (h : c ∉ text) : BeginsNowhere (c :: mark) text rest := by
  intro tail htail hne hmark
  cases tail with
  | nil => exact hne rfl
  | cons d tail =>
    rw [List.cons_append, List.cons_prefix_cons] at hmark
    exact h (htail.subset (hmark.1 ▸ List.mem_cons_self))

/-- Two characters begin a text if they are its first two. -/
theorem pair_prefix_cons_iff {a b : Char} :
    [a, b] <+: c :: cs ↔ c = a ∧ ∃ rest, cs = b :: rest := by
  rw [List.cons_prefix_cons, eq_comm]
  refine and_congr_right fun _ => ⟨?_, ?_⟩
  · rintro ⟨rest, rfl⟩
    exact ⟨rest, rfl⟩
  · rintro ⟨rest, rfl⟩
    exact ⟨rest, rfl⟩

/-- Two characters do not begin a text if they are not its first two. -/
theorem not_pair_prefix_cons {a b : Char} (h : ∀ rest, c = a → cs = b :: rest → False) :
    ¬ [a, b] <+: c :: cs := by
  intro hprefix
  obtain ⟨hc, rest, hcs⟩ := pair_prefix_cons_iff.mp hprefix
  exact h rest hc hcs

theorem beginsNowhere_opening_nil : BeginsNowhere opening text [] ↔ ¬ opening <:+: text := by
  induction text with
  | nil => simp [beginsNowhere_nil, opening]
  | cons c text ih => rw [beginsNowhere_cons, ih, List.infix_cons_iff, List.append_nil, not_or]

/-! ## Bytes

Offsets count bytes, so lengths do too. -/

theorem byteLength_cons (c : Char) (cs : List Char) :
    byteLength (c :: cs) = c.utf8Size + byteLength cs :=
  rfl

/-- The bytes of both parts. -/
theorem byteLength_append (cs ds : List Char) :
    byteLength (cs ++ ds) = byteLength cs + byteLength ds := by
  induction cs with
  | nil => exact (Nat.zero_add _).symm
  | cons c cs ih =>
    rw [List.cons_append, byteLength_cons, byteLength_cons, ih, Nat.add_assoc]

/-- The bytes of a text are those of its characters. -/
theorem byteLength_toList (text : String) : byteLength text.toList = text.utf8ByteSize := by
  rw [← String.ofList_toList (s := text), String.toList_ofList]
  induction text.toList with
  | nil => rfl
  | cons c cs ih =>
    rw [String.ofList_cons, String.utf8ByteSize_append, String.utf8ByteSize_singleton, ← ih]
    rfl

/-! ## Literal text

Literal text ends at the first opening braces, so it is what the search for them passes over. -/

theorem splitMarker_opening_append (body : List Char) :
    splitMarker (opening ++ body) = ([], some body) := by
  rw [opening, List.cons_append, List.cons_append, List.nil_append, splitMarker]

theorem splitMarker_cons (h : ¬ opening <+: c :: cs) :
    splitMarker (c :: cs) = (c :: (splitMarker cs).1, (splitMarker cs).2) := by
  rw [splitMarker]
  exact fun rest hc hcs => h (pair_prefix_cons_iff.mpr ⟨hc, rest, hcs⟩)

/-- Without a mark that begins in it, text is passed over. -/
theorem splitMarker_append (h : BeginsNowhere opening text rest) :
    splitMarker (text ++ rest) = (text ++ (splitMarker rest).1, (splitMarker rest).2) := by
  induction text with
  | nil => rfl
  | cons c text ih =>
    obtain ⟨hfirst, h⟩ := beginsNowhere_cons.mp h
    rw [List.cons_append, splitMarker_cons hfirst, ih h]
    rfl

/-- What is taken and what is left make up the text, and no mark begins in what is taken. -/
theorem splitMarker_spec (cs : List Char) :
    match splitMarker cs with
    | (text, none) => cs = text ∧ ¬ opening <:+: text
    | (text, some body) => cs = text ++ (opening ++ body) ∧
        BeginsNowhere opening text (opening ++ body) := by
  fun_induction splitMarker cs with
  | case1 => simp [opening]
  | case2 body => exact ⟨rfl, beginsNowhere_nil⟩
  | case3 c cs hmark text rest hsplit ih =>
    rw [hsplit] at ih
    have hfirst : ¬ opening <+: c :: cs := not_pair_prefix_cons hmark
    cases rest with
    | none =>
      obtain ⟨rfl, hnone⟩ := ih
      exact ⟨rfl, by rw [List.infix_cons_iff, not_or]; exact ⟨hfirst, hnone⟩⟩
    | some body =>
      obtain ⟨rfl, hnone⟩ := ih
      exact ⟨rfl, beginsNowhere_cons.mpr ⟨hfirst, hnone⟩⟩

/-- Without opening braces all of a text is literal. -/
theorem splitMarker_eq_none_iff :
    splitMarker cs = (text, none) ↔ cs = text ∧ ¬ opening <:+: text := by
  constructor
  · intro h
    have hspec := splitMarker_spec cs
    rw [h] at hspec
    exact hspec
  · rintro ⟨rfl, hnone⟩
    have h := splitMarker_append (beginsNowhere_opening_nil.mpr hnone)
    rwa [List.append_nil, splitMarker, List.append_nil] at h

/-- Where they are found, they begin nowhere before. -/
theorem splitMarker_eq_some_iff : splitMarker cs = (text, some body) ↔
    cs = text ++ (opening ++ body) ∧ BeginsNowhere opening text (opening ++ body) := by
  constructor
  · intro h
    have hspec := splitMarker_spec cs
    rw [h] at hspec
    exact hspec
  · rintro ⟨rfl, hnone⟩
    rw [splitMarker_append hnone, splitMarker_opening_append, List.append_nil]

/-- A text is a template if it holds opening braces. -/
theorem isTemplate_iff {text : String} : isTemplate text = true ↔ opening <:+: text.toList := by
  rw [isTemplate, Option.isSome_iff_ne_none, ← not_iff_not, not_not]
  constructor
  · intro h
    obtain ⟨htext, hnone⟩ := splitMarker_eq_none_iff.mp (Prod.ext rfl h)
    rwa [htext]
  · intro h
    rw [splitMarker_eq_none_iff.mpr ⟨rfl, h⟩]

/-! ## Words and arguments

Elements of an action: a word ends at white space, at a quote or at closing braces, and an argument
at its quote. -/

/-- A word ends at white space, at a quote, at closing braces or at the end of the text. -/
def EndsWord (rest : List Char) : Prop :=
  rest = [] ∨ closing <+: rest ∨ ∃ c ∈ rest.head?, Text.isBlank c = true ∨ isQuote c = true

/-- A word with no white space, no quote and no closing braces in it, up to where it ends. -/
structure IsWord (word rest : List Char) : Prop where
  isBlank_eq_false : ∀ c ∈ word, Text.isBlank c = false
  isQuote_eq_false : ∀ c ∈ word, isQuote c = false
  closing_nowhere : BeginsNowhere closing word rest
  ends : EndsWord rest

theorem isWord_nil (h : EndsWord rest) : IsWord [] rest :=
  ⟨by simp, by simp, beginsNowhere_nil, h⟩

/-- The first character must not end the word, nor any other. -/
theorem isWord_cons : IsWord (c :: word) rest ↔ Text.isBlank c = false ∧ isQuote c = false ∧
    ¬ closing <+: c :: (word ++ rest) ∧ IsWord word rest := by
  constructor
  · rintro ⟨hblank, hquote, hclosing, hends⟩
    rw [List.forall_mem_cons] at hblank hquote
    rw [beginsNowhere_cons] at hclosing
    exact ⟨hblank.1, hquote.1, hclosing.1, hblank.2, hquote.2, hclosing.2, hends⟩
  · rintro ⟨hblank, hquote, hclosing, h⟩
    exact ⟨List.forall_mem_cons.mpr ⟨hblank, h.isBlank_eq_false⟩,
      List.forall_mem_cons.mpr ⟨hquote, h.isQuote_eq_false⟩,
      beginsNowhere_cons.mpr ⟨hclosing, h.closing_nowhere⟩, h.ends⟩

/-- A character that ends no word belongs to it. -/
theorem takeWord_cons (h : ¬ closing <+: c :: cs) :
    takeWord (c :: cs) = if Text.isBlank c || isQuote c then ([], c :: cs)
      else (c :: (takeWord cs).1, (takeWord cs).2) := by
  generalize hl : c :: cs = l at h ⊢
  fun_cases takeWord l with
  | case1 => cases hl
  | case2 rest => exact absurd (List.prefix_append closing rest) h
  | case3 d rest _ hends =>
    obtain ⟨rfl, rfl⟩ := List.cons.inj hl
    rw [if_pos hends]
  | case4 d rest _ hends word rest' htake =>
    obtain ⟨rfl, rfl⟩ := List.cons.inj hl
    rw [if_neg hends, htake]

/-- White space and quotes are no braces. -/
theorem not_closing_of_ends (h : Text.isBlank c = true ∨ isQuote c = true) :
    ¬ closing <+: c :: cs := by
  intro hclosing
  obtain ⟨rfl, -⟩ := pair_prefix_cons_iff.mp hclosing
  revert h
  decide

/-- Where a word ends nothing is taken. -/
theorem takeWord_of_endsWord (h : EndsWord rest) : takeWord rest = ([], rest) := by
  rcases h with rfl | ⟨rest, rfl⟩ | ⟨c, hc, hends⟩
  · rfl
  · rfl
  · cases rest with
    | nil => cases hc
    | cons d rest =>
      obtain rfl : d = c := Option.some.inj hc
      rw [takeWord_cons (not_closing_of_ends hends), if_pos (Bool.or_eq_true_iff.mpr hends)]

/-- A word is taken up to where it ends. -/
theorem takeWord_append (h : IsWord word rest) : takeWord (word ++ rest) = (word, rest) := by
  induction word with
  | nil => exact takeWord_of_endsWord h.ends
  | cons c word ih =>
    obtain ⟨hblank, hquote, hclosing, h⟩ := isWord_cons.mp h
    rw [List.cons_append, takeWord_cons hclosing, hblank, hquote, Bool.or_self,
      if_neg Bool.false_ne_true, ih h]

/-- What is taken is a word. -/
theorem takeWord_spec (cs : List Char) :
    cs = (takeWord cs).1 ++ (takeWord cs).2 ∧ IsWord (takeWord cs).1 (takeWord cs).2 := by
  fun_induction takeWord cs with
  | case1 => exact ⟨rfl, isWord_nil (.inl rfl)⟩
  | case2 cs => exact ⟨rfl, isWord_nil (.inr (.inl (List.prefix_append closing cs)))⟩
  | case3 c cs hclosing hends =>
    exact ⟨rfl, isWord_nil (.inr (.inr ⟨c, rfl, Bool.or_eq_true_iff.mp hends⟩))⟩
  | case4 c cs hclosing hends word rest htake ih =>
    rw [htake] at ih
    obtain ⟨rfl, hword⟩ := ih
    rw [Bool.or_eq_true, not_or, Bool.not_eq_true, Bool.not_eq_true] at hends
    exact ⟨rfl, isWord_cons.mpr ⟨hends.1, hends.2, not_pair_prefix_cons hclosing, hword⟩⟩

/-- An argument is taken up to the next quote of its kind. -/
theorem takeQuoted_eq_some_iff :
    takeQuoted quote cs = some (body, rest) ↔ cs = body ++ quote :: rest ∧ quote ∉ body := by
  induction cs generalizing body with
  | nil => simp [takeQuoted]
  | cons c cs ih =>
    rw [takeQuoted]
    split
    · rename_i hc
      subst hc
      cases body with
      | nil => simp [eq_comm]
      | cons d body => simp +contextual [eq_comm]
    · rename_i hc
      rw [Option.map_eq_some_iff]
      cases body with
      | nil => simp [hc]
      | cons d body =>
        simp only [Prod.exists, Prod.mk.injEq, List.cons.injEq, List.cons_append, List.mem_cons,
          not_or]
        constructor
        · rintro ⟨body', rest', htake, ⟨rfl, rfl⟩, rfl⟩
          obtain ⟨hcs, hbody⟩ := ih.mp htake
          exact ⟨⟨rfl, hcs⟩, fun h => hc h.symm, hbody⟩
        · rintro ⟨⟨rfl, hcs⟩, -, hbody⟩
          exact ⟨body, rest, ih.mpr ⟨hcs, hbody⟩, ⟨rfl, rfl⟩, rfl⟩

/-- Without such a quote there is none. -/
theorem takeQuoted_eq_none_iff : takeQuoted quote cs = none ↔ quote ∉ cs := by
  constructor
  · intro htake hmem
    obtain ⟨body, rest, rfl, hbody⟩ := List.eq_append_cons_of_mem hmem
    rw [takeQuoted_eq_some_iff.mpr ⟨rfl, hbody⟩] at htake
    cases htake
  · intro hnone
    cases htake : takeQuoted quote cs with
    | none => rfl
    | some taken =>
      obtain ⟨rfl, -⟩ := takeQuoted_eq_some_iff.mp htake
      exact absurd (List.mem_append_right _ List.mem_cons_self) hnone

/-! ## Elements up to closing braces

`Lexes` says what the elements of an action are; an action is read just so, wherever it begins. -/

/-- The elements that stand in a text before its closing braces, with white space between them, and
what follows the braces. -/
inductive Lexes : List Char → List Token → List Char → Prop
  | close (rest : List Char) : Lexes (closing ++ rest) [] rest
  | blank {c : Char} {cs rest : List Char} {ts : List Token} (hc : Text.isBlank c = true)
      (h : Lexes cs ts rest) : Lexes (c :: cs) ts rest
  | quoted {quote : Char} {body cs rest : List Char} {ts : List Token}
      (hquote : isQuote quote = true) (hbody : quote ∉ body) (h : Lexes cs ts rest) :
      Lexes (quote :: (body ++ quote :: cs)) (.quoted body :: ts) rest
  | word {word cs rest : List Char} {ts : List Token} (hne : word ≠ []) (hword : IsWord word cs)
      (h : Lexes cs ts rest) : Lexes (word ++ cs) (.word word :: ts) rest

variable {start pos : Nat} {l : Lexed}

theorem isQuote_eq_false_of_isBlank (h : Text.isBlank c = true) : isQuote c = false := by
  rw [isQuote, Bool.or_eq_false_iff, decide_eq_false_iff_not, decide_eq_false_iff_not]
  constructor <;> rintro rfl <;> revert h <;> decide

theorem isBlank_eq_false_of_isQuote (h : isQuote c = true) : Text.isBlank c = false := by
  by_contra hblank
  rw [isQuote_eq_false_of_isBlank (Bool.not_eq_false _ ▸ hblank)] at h
  cases h

/-- Puts an element in front of those that follow it. -/
def Lexed.prepend (t : Token) (l : Lexed) : Lexed :=
  { l with tokens := t :: l.tokens }

/-- An action that ends with the text is not closed. -/
theorem lexAction_nil : lexAction start pos [] = .error (.unclosedAction start) := by
  generalize hl : [] = l
  fun_cases lexAction start pos l with
  | case1 => rfl
  | case2 | case3 | case4 | case5 | case6 | case7 | case8 => cases hl

/-- Closing braces end an action. -/
theorem lexAction_closing : lexAction start pos (closing ++ rest) = .ok ⟨[], rest⟩ := by
  generalize hl : closing ++ rest = l
  fun_cases lexAction start pos l with
  | case1 => cases hl
  | case2 => cases hl; rfl
  | case3 _ _ h | case4 _ _ h | case5 _ _ h | case6 _ _ h | case7 _ _ h | case8 _ _ h =>
    obtain ⟨rfl, hrest⟩ := List.cons.inj hl
    exact absurd hrest.symm (h rest rfl)

/-- What the first character of an element decides. -/
theorem lexAction_cons (h : ¬ closing <+: c :: cs) :
    lexAction start pos (c :: cs) =
      if Text.isBlank c then lexAction start (pos + c.utf8Size) cs
      else if isQuote c then
        match takeQuoted c cs with
        | none => .error (.unterminatedString pos)
        | some (body, rest) =>
          (lexAction start (pos + byteLength body + 2) rest).map (.prepend (.quoted body))
      else
        (lexAction start (pos + byteLength (c :: (takeWord cs).1)) (takeWord cs).2).map
          (.prepend (.word (c :: (takeWord cs).1))) := by
  generalize hl : c :: cs = l at h
  fun_cases lexAction start pos l with
  | case1 => cases hl
  | case2 rest => exact absurd (List.prefix_append closing rest) h
  | case3 d rest _ hblank =>
    obtain ⟨rfl, rfl⟩ := List.cons.inj hl
    rw [if_pos hblank]
  | case4 d rest _ hblank hquote htake =>
    obtain ⟨rfl, rfl⟩ := List.cons.inj hl
    rw [if_neg hblank, if_pos hquote, htake]
  | case5 d rest _ hblank hquote body rest' htake e hlex
  | case6 d rest _ hblank hquote body rest' htake l' hlex =>
    obtain ⟨rfl, rfl⟩ := List.cons.inj hl
    rw [if_neg hblank, if_pos hquote, htake]
    simp only [hlex, Except.map, Lexed.prepend]
  | case7 d rest _ hblank hquote e hlex | case8 d rest _ hblank hquote l' hlex =>
    obtain ⟨rfl, rfl⟩ := List.cons.inj hl
    rw [if_neg hblank, if_neg hquote, hlex]
    rfl

theorem lexAction_blank (hc : Text.isBlank c = true) :
    lexAction start pos (c :: cs) = lexAction start (pos + c.utf8Size) cs := by
  rw [lexAction_cons (not_closing_of_ends (.inl hc)), if_pos hc]

/-- An argument is taken as a whole. -/
theorem lexAction_quoted (hquote : isQuote quote = true) (hbody : quote ∉ body) :
    lexAction start pos (quote :: (body ++ quote :: cs)) =
      (lexAction start (pos + byteLength body + 2) cs).map (.prepend (.quoted body)) := by
  rw [lexAction_cons (not_closing_of_ends (.inr hquote)), isBlank_eq_false_of_isQuote hquote,
    if_neg Bool.false_ne_true, if_pos hquote, takeQuoted_eq_some_iff.mpr ⟨rfl, hbody⟩]

/-- A word is taken as a whole. -/
theorem lexAction_word (hne : word ≠ []) (hword : IsWord word cs) :
    lexAction start pos (word ++ cs) =
      (lexAction start (pos + byteLength word) cs).map (.prepend (.word word)) := by
  cases word with
  | nil => exact absurd rfl hne
  | cons c word =>
    obtain ⟨hblank, hquote, hclosing, hword⟩ := isWord_cons.mp hword
    rw [List.cons_append, lexAction_cons hclosing, hblank, hquote, if_neg Bool.false_ne_true,
      if_neg Bool.false_ne_true, takeWord_append hword]

/-- What is read are the elements. -/
theorem lexes_of_lexAction (h : lexAction start pos cs = .ok l) : Lexes cs l.tokens l.rest := by
  fun_induction lexAction start pos cs generalizing l with
  | case1 => cases h
  | case2 pos rest =>
    cases h
    exact .close rest
  | case3 pos c cs hclosing hc ih => exact .blank hc (ih h)
  | case4 => cases h
  | case5 => cases h
  | case6 pos c cs hclosing hblank hquote body rest htake l' hl ih =>
    cases h
    obtain ⟨rfl, hbody⟩ := takeQuoted_eq_some_iff.mp htake
    exact .quoted hquote hbody (ih hl)
  | case7 => cases h
  | case8 pos c cs hclosing hblank hquote l' hl ih =>
    cases h
    obtain ⟨hcs, hword⟩ := takeWord_spec cs
    have hfirst : ¬ closing <+: c :: ((takeWord cs).1 ++ (takeWord cs).2) :=
      hcs ▸ not_pair_prefix_cons hclosing
    have hcons : IsWord (c :: (takeWord cs).1) (takeWord cs).2 :=
      isWord_cons.mpr ⟨Bool.not_eq_true _ ▸ hblank, Bool.not_eq_true _ ▸ hquote, hfirst, hword⟩
    have hlexes := Lexes.word (List.cons_ne_nil _ _) hcons (ih hl)
    rwa [List.cons_append, ← hcs] at hlexes

/-- The elements are what is read. -/
theorem lexAction_of_lexes {ts : List Token} (h : Lexes cs ts rest) :
    lexAction start pos cs = .ok ⟨ts, rest⟩ := by
  induction h generalizing pos with
  | close rest => exact lexAction_closing
  | blank hc _ ih => rw [lexAction_blank hc, ih]
  | quoted hquote hbody _ ih =>
    rw [lexAction_quoted hquote hbody, ih]
    rfl
  | word hne hword _ ih =>
    rw [lexAction_word hne hword, ih]
    rfl

/-- **An action is read as the elements that stand before its closing braces.** Where in the source
it stands makes no difference to that. -/
theorem lexAction_eq_ok_iff : lexAction start pos cs = .ok l ↔ Lexes cs l.tokens l.rest :=
  ⟨lexes_of_lexAction, lexAction_of_lexes⟩

end EdgeInclude.Template
