import EdgeInclude.Proofs.Template.Grammar

/-!
# Compiling by byte offsets

A text that is held as bytes can be cut at a byte offset only where a character begins, or where the
text ends. Here a template is compiled by such cuts alone: the opening braces, the end of an argument
and the closing braces are each found as an offset, and what is read next is cut out at it.

* **`cutAt?`**, **`dropBytes?`**, **`slice?`**: cuts. **`isSome_cutAt?_iff`**: where they succeed.
* **`lexAt?`**, **`compileAt?`**: an action and a template by cuts.
* **`lexAt?_eq`**, **`compileAt?_eq`**: no cut fails, and what is read is the same.
-/

namespace EdgeInclude.Template

/-! ## Cuts

A cut at a byte offset fails inside a character. The functions below read a text by such cuts and
give up where one fails. -/

/-- A text in two at a byte offset, which has to be that of a character or of the end. -/
def cutAt? : Nat → List Char → Option (List Char × List Char)
  | 0, cs => some ([], cs)
  | _ + 1, [] => none
  | n + 1, c :: cs =>
    if c.utf8Size ≤ n + 1 then
      (cutAt? (n + 1 - c.utf8Size) cs).map fun (front, back) => (c :: front, back)
    else none

/-- What stands in a text from a byte offset on. -/
def dropBytes? (start : Nat) (cs : List Char) : Option (List Char) :=
  (cutAt? start cs).map Prod.snd

/-- What stands in a text from one byte offset up to another. -/
def slice? (start stop : Nat) (cs : List Char) : Option (List Char) :=
  if start ≤ stop then
    (dropBytes? start cs).bind fun back => (cutAt? (stop - start) back).map Prod.fst
  else none

/-- Only an empty text has no bytes. -/
theorem byteLength_eq_zero_iff {cs : List Char} : byteLength cs = 0 ↔ cs = [] := by
  cases cs with
  | nil => exact iff_of_true rfl rfl
  | cons c cs =>
    have := c.utf8Size_pos
    rw [byteLength_cons]
    exact iff_of_false (by omega) (List.cons_ne_nil c cs)

/-- **A text is cut in two at the bytes of its front.** -/
theorem cutAt?_eq_some_iff {n : Nat} {cs front back : List Char} :
    cutAt? n cs = some (front, back) ↔ cs = front ++ back ∧ byteLength front = n := by
  fun_induction cutAt? n cs generalizing front with
  | case1 cs =>
    rw [Option.some.injEq, Prod.mk.injEq, byteLength_eq_zero_iff]
    constructor
    · rintro ⟨rfl, rfl⟩
      exact ⟨rfl, rfl⟩
    · rintro ⟨rfl, rfl⟩
      exact ⟨rfl, rfl⟩
  | case2 n =>
    refine iff_of_false nofun ?_
    rintro ⟨hnil, hlength⟩
    rw [(List.append_eq_nil_iff.mp hnil.symm).1] at hlength
    cases hlength
  | case3 n c cs hle ih =>
    rw [Option.map_eq_some_iff]
    constructor
    · rintro ⟨⟨front', back'⟩, hcut, heq⟩
      cases heq
      obtain ⟨rfl, hlength⟩ := ih.mp hcut
      refine ⟨rfl, ?_⟩
      rw [byteLength_cons, hlength]
      omega
    · rintro ⟨hcs, hlength⟩
      cases front with
      | nil => cases hlength
      | cons d front =>
        obtain ⟨rfl, rfl⟩ := List.cons.inj hcs
        rw [byteLength_cons] at hlength
        exact ⟨(front, back), ih.mpr ⟨rfl, by omega⟩, rfl⟩
  | case4 n c cs hle =>
    refine iff_of_false nofun ?_
    rintro ⟨hcs, hlength⟩
    cases front with
    | nil => cases hlength
    | cons d front =>
      obtain ⟨rfl, -⟩ := List.cons.inj hcs
      rw [byteLength_cons] at hlength
      omega

/-- A cut further in leaves less. -/
theorem length_dropBytes?_lt {n : Nat} {cs rest : List Char} (hn : 0 < n)
    (h : dropBytes? n cs = some rest) : rest.length < cs.length := by
  obtain ⟨⟨front, back⟩, hcut, rfl⟩ := Option.map_eq_some_iff.mp h
  obtain ⟨rfl, rfl⟩ := cutAt?_eq_some_iff.mp hcut
  have hfront : front ≠ [] := fun hnil => Nat.ne_of_gt hn (byteLength_eq_zero_iff.mpr hnil)
  show back.length < (front ++ back).length
  rw [List.length_append]
  exact Nat.lt_add_of_pos_left (List.length_pos_iff.mpr hfront)

/-! ## Reading by cuts

The same reading as in the model, with every part taken out of the text between two byte offsets. -/

/-- The byte offset at which a mark of one character or more first stands in a text. -/
def find? (mark : List Char) : List Char → Option Nat
  | [] => none
  | c :: cs =>
    if mark.isPrefixOf (c :: cs) then some 0 else (find? mark cs).map (c.utf8Size + ·)

/-- The characters of a text that begins at a byte offset, each with its own. -/
def charOffsets (pos : Nat) : List Char → List (Nat × Char)
  | [] => []
  | c :: cs => (pos, c) :: charOffsets (pos + c.utf8Size) cs

/-- Takes a word off the characters that are still ahead in an action. Closing braces are looked for in
what is cut off the body before each of them. -/
def wordAt? (body : List Char) : List (Nat × Char) → Option (List Char × List (Nat × Char))
  | [] => some ([], [])
  | (i, c) :: ahead =>
    if Text.isBlank c || isQuote c then some ([], (i, c) :: ahead)
    else
      match dropBytes? i body with
      | none => none
      | some here =>
        if closing.isPrefixOf here then some ([], (i, c) :: ahead)
        else (wordAt? body ahead).map fun (word, rest) => (c :: word, rest)

/-- A word takes characters off. -/
theorem length_wordAt?_le {body word : List Char} {ahead rest : List (Nat × Char)}
    (h : wordAt? body ahead = some (word, rest)) : rest.length ≤ ahead.length := by
  fun_induction wordAt? body ahead generalizing word with
  | case1 => cases h; exact Nat.le_refl _
  | case2 => cases h; exact Nat.le_refl _
  | case3 => cases h
  | case4 => cases h; exact Nat.le_refl _
  | case5 i c ahead _ here _ _ ih =>
    obtain ⟨⟨word', rest'⟩, hword, heq⟩ := Option.map_eq_some_iff.mp h
    cases heq
    exact Nat.le_succ_of_le (ih hword)

-- The recursion below is bounded by the equation of its match, which the linter does not see.
set_option linter.unusedVariables false in
/-- Reads the elements of an action that begins at byte `start` of the template, and the byte offset of
its closing braces in the body. -/
def lexAt? (start : Nat) (body : List Char) (ahead : List (Nat × Char)) :
    Option (Except CompileError (List Token × Nat)) :=
  match ahead with
  | [] => some (.error (.unclosedAction start))
  | (i, c) :: ahead =>
    match dropBytes? i body with
    | none => none
    | some here =>
      if closing.isPrefixOf here then some (.ok ([], i))
      else if Text.isBlank c then lexAt? start body ahead
      else if isQuote c then
        match dropBytes? (i + c.utf8Size) body with
        | none => none
        | some behind =>
          match find? [c] behind with
          | none => some (.error (.unterminatedString (start + 2 + i)))
          | some length =>
            match slice? (i + c.utf8Size) (i + c.utf8Size + length) body with
            | none => none
            | some text =>
              (lexAt? start body (ahead.dropWhile fun next => next.1 ≤ i + c.utf8Size + length)).map
                (Except.map fun (tokens, stop) => (.quoted text :: tokens, stop))
      else
        match h : wordAt? body ahead with
        | none => none
        | some (word, rest) =>
          (lexAt? start body rest).map
            (Except.map fun (tokens, stop) => (.word (c :: word) :: tokens, stop))
termination_by ahead.length
decreasing_by
  · simp
  · exact Nat.lt_succ_of_le (List.dropWhile_sublist _).length_le
  · exact Nat.lt_succ_of_le (length_wordAt?_le h)

-- The recursion below is bounded by the equation of its match, which the linter does not see.
set_option linter.unusedVariables false in
/-- The parts of what is left of a template behind its first `consumed` bytes. -/
def compileAt? (consumed : Nat) (cs : List Char) : Option (Except CompileError (List Part)) :=
  match find? opening cs with
  | none => some (.ok (textPart cs))
  | some start =>
    match slice? 0 start cs, dropBytes? (start + 2) cs with
    | some literal, some body =>
      match lexAt? (consumed + start) body (charOffsets 0 body) with
      | none => none
      | some (.error e) => some (.error e)
      | some (.ok (tokens, length)) =>
        match actionOf (consumed + start) tokens with
        | .error e => some (.error e)
        | .ok action =>
          match h : dropBytes? (start + 2 + length + 2) cs with
          | none => none
          | some rest =>
            (compileAt? (consumed + (start + 2 + length + 2)) rest).map
              (Except.map fun parts => textPart literal ++ .action action :: parts)
    | _, _ => none
termination_by cs.length
decreasing_by exact length_dropBytes?_lt (by omega) h

/-- Compiles a template by cuts. There is no result if one of them fails. -/
def cutCompile? (source : String) : Option (Except CompileError Template) :=
  (compileAt? 0 source.toList).map (Except.map (Template.mk source))

variable {before text rest cs body mark : List Char} {c quote : Char} {start pos : Nat}

/-! ## Where cuts succeed

An offset that is the number of bytes in front of some rest lies between two characters. -/

theorem dropBytes?_eq_some_iff {n : Nat} :
    dropBytes? n cs = some rest ↔ ∃ front, cs = front ++ rest ∧ byteLength front = n := by
  simp only [dropBytes?, Option.map_eq_some_iff, Prod.exists, exists_eq_right, cutAt?_eq_some_iff]

/-- Behind a text that stands at an offset, there is a cut too. -/
theorem dropBytes?_add (h : dropBytes? pos body = some (text ++ rest)) :
    dropBytes? (pos + byteLength text) body = some rest := by
  obtain ⟨front, rfl, rfl⟩ := dropBytes?_eq_some_iff.mp h
  exact dropBytes?_eq_some_iff.mpr
    ⟨front ++ text, (List.append_assoc _ _ _).symm, byteLength_append front text⟩

theorem dropBytes?_tail (h : dropBytes? pos body = some (c :: cs)) :
    dropBytes? (pos + c.utf8Size) body = some cs := by
  have hone : dropBytes? pos body = some ([c] ++ cs) := h
  exact dropBytes?_add hone

theorem dropBytes?_zero (cs : List Char) : dropBytes? 0 cs = some cs :=
  dropBytes?_eq_some_iff.mpr ⟨[], rfl, rfl⟩

theorem slice?_add (h : dropBytes? pos body = some (text ++ rest)) :
    slice? pos (pos + byteLength text) body = some text := by
  rw [slice?, if_pos (Nat.le_add_right _ _), h, Option.bind_some, Nat.add_sub_cancel_left,
    cutAt?_eq_some_iff.mpr ⟨rfl, rfl⟩, Option.map_some]

theorem byteLength_of_dropBytes? (h : dropBytes? pos body = some cs) :
    byteLength body = pos + byteLength cs := by
  obtain ⟨front, rfl, rfl⟩ := dropBytes?_eq_some_iff.mp h
  exact byteLength_append front cs

/-- A text can be cut where a position in it is valid, and nowhere else. -/
theorem isSome_cutAt?_iff {text : String} {n : Nat} :
    (cutAt? n text.toList).isSome ↔ (String.Pos.Raw.mk n).IsValid text := by
  rw [String.Pos.Raw.isValid_iff_exists_append, Option.isSome_iff_exists, Prod.exists]
  constructor
  · rintro ⟨front, back, hcut⟩
    obtain ⟨htext, hlength⟩ := cutAt?_eq_some_iff.mp hcut
    refine ⟨String.ofList front, String.ofList back, ?_, ?_⟩
    · rw [← String.ofList_append, ← htext, String.ofList_toList]
    · rw [String.rawEndPos, ← byteLength_toList, String.toList_ofList, hlength]
  · rintro ⟨front, back, rfl, hn⟩
    refine ⟨front.toList, back.toList, cutAt?_eq_some_iff.mpr ⟨String.toList_append, ?_⟩⟩
    rw [byteLength_toList]
    exact (congrArg String.Pos.Raw.byteIdx hn).symm

/-! ## What is found

A mark is found at the bytes of what the model passes over. -/

theorem find?_of_prefix (hne : cs ≠ []) (h : mark <+: cs) : find? mark cs = some 0 := by
  cases cs with
  | nil => exact absurd rfl hne
  | cons c cs => rw [find?, if_pos (List.isPrefixOf_iff_prefix.mpr h)]

/-- Text in which the mark does not begin is passed over. -/
theorem find?_append (h : BeginsNowhere mark text rest) :
    find? mark (text ++ rest) = (find? mark rest).map (byteLength text + ·) := by
  induction text with
  | nil =>
    have hzero : (byteLength [] + ·) = (id : Nat → Nat) := funext Nat.zero_add
    rw [List.nil_append, hzero, Option.map_id_fun, id]
  | cons c text ih =>
    obtain ⟨hfirst, h⟩ := beginsNowhere_cons.mp h
    rw [List.cons_append, find?, if_neg (fun hp => hfirst (List.isPrefixOf_iff_prefix.mp hp)), ih h,
      Option.map_map, byteLength_cons]
    congr 1
    funext n
    exact (Nat.add_assoc _ _ _).symm

/-- Opening braces are found behind the literal text. -/
theorem find?_opening (cs : List Char) : find? opening cs =
    match splitMarker cs with
    | (_, none) => none
    | (literal, some _) => some (byteLength literal) := by
  rcases hsplit : splitMarker cs with ⟨literal, _ | body⟩
  · obtain ⟨rfl, hnone⟩ := splitMarker_eq_none_iff.mp hsplit
    have hfind := find?_append (beginsNowhere_opening_nil.mpr hnone)
    rwa [List.append_nil] at hfind
  · obtain ⟨rfl, hfirst⟩ := splitMarker_eq_some_iff.mp hsplit
    rw [find?_append hfirst, find?_of_prefix (by simp [opening]) (List.prefix_append opening body)]
    rfl

/-- A quote is found behind what it encloses. -/
theorem find?_quote (quote : Char) (cs : List Char) :
    find? [quote] cs = (takeQuoted quote cs).map fun taken => byteLength taken.1 := by
  cases htake : takeQuoted quote cs with
  | some taken =>
    obtain ⟨rfl, htext⟩ := takeQuoted_eq_some_iff.mp htake
    rw [find?_append (beginsNowhere_of_notMem htext),
      find?_of_prefix (List.cons_ne_nil _ _) ⟨taken.2, rfl⟩]
    rfl
  | none =>
    have hnowhere : BeginsNowhere [quote] cs [] :=
      beginsNowhere_of_notMem (takeQuoted_eq_none_iff.mp htake)
    have hfind := find?_append hnowhere
    rwa [List.append_nil] at hfind

/-! ## Reading by cuts is reading

At each step the offset is the number of bytes in front, so every cut succeeds. -/

theorem charOffsets_cons (pos : Nat) (c : Char) (cs : List Char) :
    charOffsets pos (c :: cs) = (pos, c) :: charOffsets (pos + c.utf8Size) cs :=
  rfl

/-- The characters ahead are dropped up to one at a known offset, and that one with them. -/
theorem dropWhile_charOffsets (pos : Nat) (text : List Char) (c : Char) (rest : List Char) :
    (charOffsets pos (text ++ c :: rest)).dropWhile (fun next => next.1 ≤ pos + byteLength text) =
      charOffsets (pos + byteLength text + c.utf8Size) rest := by
  induction text generalizing pos with
  | nil =>
    rw [List.nil_append, charOffsets_cons, List.dropWhile_cons_of_pos (by simp [byteLength])]
    cases rest with
    | nil => rfl
    | cons d rest =>
      have hbehind : ¬ pos + c.utf8Size ≤ pos :=
        Nat.not_le_of_lt (Nat.lt_add_of_pos_right c.utf8Size_pos)
      exact List.dropWhile_cons_of_neg fun h => hbehind (decide_eq_true_eq.mp h)
  | cons d text ih =>
    rw [List.cons_append, charOffsets_cons, List.dropWhile_cons_of_pos (by simp), byteLength_cons,
      ← Nat.add_assoc, ih]

theorem isPrefixOf_eq_false (h : ¬ mark <+: cs) : mark.isPrefixOf cs = false := by
  rwa [← List.isPrefixOf_iff_prefix, Bool.not_eq_true] at h

/-- A word is taken by cuts as it is without. -/
theorem wordAt?_eq (h : dropBytes? pos body = some cs) :
    wordAt? body (charOffsets pos cs) = some ((takeWord cs).1,
      charOffsets (pos + byteLength (takeWord cs).1) (takeWord cs).2) := by
  induction cs generalizing pos with
  | nil => rfl
  | cons c cs ih =>
    rw [charOffsets_cons, wordAt?, h]
    by_cases hends : (Text.isBlank c || isQuote c) = true
    · rw [if_pos hends, takeWord_of_endsWord (.inr (.inr ⟨c, rfl, Bool.or_eq_true_iff.mp hends⟩))]
      rfl
    rw [if_neg hends]
    dsimp only
    by_cases hclosing : closing <+: c :: cs
    · rw [if_pos (List.isPrefixOf_iff_prefix.mpr hclosing),
        takeWord_of_endsWord (.inr (.inl hclosing))]
      rfl
    · rw [isPrefixOf_eq_false hclosing, if_neg Bool.false_ne_true, takeWord_cons hclosing,
        if_neg hends, ih (dropBytes?_tail h), byteLength_cons, ← Nat.add_assoc]
      rfl

theorem utf8Size_of_isQuote (h : isQuote c = true) : c.utf8Size = 1 := by
  rcases isQuote_iff.mp h with rfl | rfl <;> rfl

/-- **An action is read by cuts as it is read without them.** The induction is on the length of what is
ahead; at the front of it there is always a cut. -/
theorem lexAt?_eq (start : Nat) (h : dropBytes? pos body = some cs) :
    lexAt? start body (charOffsets pos cs) =
      some ((lexAction start (start + 2 + pos) cs).map fun l =>
        (l.tokens, byteLength body - byteLength l.rest - 2)) := by
  induction hlength : cs.length using Nat.strongRecOn generalizing pos cs with
  | ind length ih =>
    subst hlength
    cases cs with
    | nil =>
      rw [lexAction_nil, charOffsets, lexAt?]
      rfl
    | cons c cs =>
      rw [charOffsets_cons, lexAt?, h]
      dsimp only
      -- the cases are those in which an action is read
      by_cases hclosing : closing <+: c :: cs
      · rw [if_pos (List.isPrefixOf_iff_prefix.mpr hclosing)]
        obtain ⟨rest, hrest⟩ := hclosing
        have hlength : byteLength body = pos + (2 + byteLength rest) := by
          rw [byteLength_of_dropBytes? h, ← hrest, byteLength_append]
          rfl
        have hstop : byteLength body - byteLength rest - 2 = pos := by omega
        rw [← hrest, lexAction_closing, Except.map, hstop]
      rw [isPrefixOf_eq_false hclosing, if_neg Bool.false_ne_true, lexAction_cons hclosing]
      have hnext := dropBytes?_tail h
      by_cases hblank : Text.isBlank c = true
      · rw [if_pos hblank, if_pos hblank, ih cs.length (Nat.lt_succ_self _) hnext rfl, ← Nat.add_assoc]
      rw [if_neg hblank, if_neg hblank]
      by_cases hquote : isQuote c = true
      · rw [if_pos hquote, if_pos hquote, hnext]
        dsimp only
        rw [find?_quote]
        cases htake : takeQuoted c cs with
        | none => rfl
        | some taken =>
          obtain ⟨text, rest⟩ := taken
          obtain ⟨rfl, -⟩ := takeQuoted_eq_some_iff.mp htake
          have hlt := Nat.lt_succ_of_lt (length_takeQuoted_lt htake)
          rw [Option.map_some]
          dsimp only
          rw [slice?_add hnext, dropWhile_charOffsets]
          dsimp only
          -- both quotes are one byte
          have hpos : start + 2 + (pos + c.utf8Size + byteLength text + c.utf8Size) =
              start + 2 + pos + byteLength text + 2 := by
            rw [utf8Size_of_isQuote hquote]
            omega
          rw [ih rest.length hlt (dropBytes?_tail (dropBytes?_add hnext)) rfl, hpos]
          cases lexAction start (start + 2 + pos + byteLength text + 2) rest <;> rfl
      · rw [if_neg hquote, if_neg hquote]
        have hrest : dropBytes? (pos + c.utf8Size + byteLength (takeWord cs).1) body =
            some (takeWord cs).2 :=
          dropBytes?_add ((takeWord_spec cs).1 ▸ hnext)
        -- the cut at the word cannot fail, since the word was taken off the text
        have hword := wordAt?_eq hnext
        have hlt := Nat.lt_succ_of_le (length_takeWord_le cs)
        split
        · rename_i hnone
          rw [hword] at hnone
          cases hnone
        · rename_i word ahead htake
          rw [hword] at htake
          cases htake
          rw [ih _ hlt hrest rfl, byteLength_cons, ← Nat.add_assoc, ← Nat.add_assoc, ← Nat.add_assoc]
          cases lexAction start _ (takeWord cs).2 <;> rfl

/-- The closing braces of an action stand in front of what follows it. -/
theorem Lexes.exists_closing {ts : List Token} (h : Lexes cs ts rest) :
    ∃ inner, cs = inner ++ (closing ++ rest) := by
  induction h with
  | close rest => exact ⟨[], rfl⟩
  | @blank c _ _ _ _ _ ih =>
    obtain ⟨inner, rfl⟩ := ih
    exact ⟨c :: inner, rfl⟩
  | @quoted quote body _ _ _ _ _ _ ih =>
    obtain ⟨inner, rfl⟩ := ih
    exact ⟨quote :: (body ++ quote :: inner), by simp⟩
  | @word word _ _ _ _ _ _ ih =>
    obtain ⟨inner, rfl⟩ := ih
    exact ⟨word ++ inner, (List.append_assoc _ _ _).symm⟩

/-- **A template is compiled by cuts as it is compiled without them.** -/
theorem compileAt?_eq (consumed : Nat) (cs : List Char) :
    compileAt? consumed cs = some (compileFrom consumed cs) := by
  induction hlength : cs.length using Nat.strongRecOn generalizing consumed cs with
  | ind length ih =>
    subst hlength
    rw [compileAt?, find?_opening, compileFrom_eq]
    rcases hsplit : splitMarker cs with ⟨literal, _ | body⟩
    · rw [(splitMarker_eq_none_iff.mp hsplit).1]
    obtain ⟨hcs, -⟩ := splitMarker_eq_some_iff.mp hsplit
    -- the cuts are those at the literal text, behind the opening braces, and behind the action
    have hwhole : dropBytes? 0 cs = some (literal ++ (opening ++ body)) := by
      rw [dropBytes?_zero, hcs]
    have hliteral := slice?_add hwhole
    have hbody := dropBytes?_add (dropBytes?_add hwhole)
    rw [Nat.zero_add] at hliteral hbody
    change dropBytes? (byteLength literal + 2) cs = some body at hbody
    dsimp only
    rw [hliteral, hbody]
    dsimp only
    rw [lexAt?_eq _ (dropBytes?_zero body), Nat.add_zero]
    cases hlex : lexAction (consumed + byteLength literal) (consumed + byteLength literal + 2)
        body with
    | error e => rfl
    | ok l =>
      obtain ⟨inner, hinner⟩ := (lexes_of_lexAction hlex).exists_closing
      rw [hinner] at hbody
      have hrest := dropBytes?_add (dropBytes?_add hbody)
      have hlength : byteLength body = byteLength inner + (2 + byteLength l.rest) := by
        rw [hinner, byteLength_append, byteLength_append]
        rfl
      -- what is left tells where the action stopped
      have hstop : byteLength body - byteLength l.rest - 2 = byteLength inner := by omega
      have hnext : consumed + byteLength cs - byteLength l.rest =
          consumed + (byteLength literal + 2 + byteLength inner + 2) := by
        rw [hcs, byteLength_append, byteLength_append, hlength]
        change consumed + (byteLength literal + (2 + _)) - _ = _
        omega
      have hlt : l.rest.length < cs.length :=
        Nat.lt_trans (length_rest_lexAction_lt hlex) (length_splitMarker_lt hsplit)
      dsimp only [Except.map, Except.bind]
      rw [hstop, hnext]
      cases actionOf (consumed + byteLength literal) l.tokens with
      | error e => rfl
      | ok a =>
        dsimp only
        split
        · rename_i hnone
          cases hnone.symm.trans hrest
        · rename_i rest hsome
          obtain rfl := Option.some.inj (hsome.symm.trans hrest)
          rw [ih _ hlt _ _ rfl]
          rfl

theorem cutCompile?_eq (source : String) : cutCompile? source = some (compile source) := by
  rw [cutCompile?, compileAt?_eq, Option.map_some, compile]
  cases compileFrom 0 source.toList <;> rfl

end EdgeInclude.Template
