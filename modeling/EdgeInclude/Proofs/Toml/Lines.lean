import EdgeInclude.Proofs.Text.Runs
import EdgeInclude.Toml.Document

/-!
# Documents of plain lines

A document each of whose lines gives a string to a bare key has these keys and strings as its
entries.

* **`take?_line`**: a line is taken as a key with its string.
* **`parse?_lines`**: the entries of such a document.
-/

namespace EdgeInclude.Toml

open Scanner

/-- A key that is written without quotes. -/
def IsBareKey (name : String) : Prop :=
  name ≠ "" ∧ ∀ c ∈ name.toList, isKeyChar c = true

/-- A character that stands for itself between double quotes. -/
def isUnescaped (c : Char) : Bool :=
  c ≠ '"' && c ≠ '\\' && isPlain c

/-- A text of which nothing is escaped between double quotes. -/
def IsUnescaped (text : String) : Prop :=
  ∀ c ∈ text.toList, isUnescaped c = true

/-- The line that gives a string to a key. -/
def line (pair : String × String) : List Char :=
  pair.1.toList ++ " = \"".toList ++ pair.2.toList ++ "\"\n".toList

variable {name text : String} {c : Char} {cs rest : List Char}

/-! ## Scanning a line

A bare key, an equals sign and a text without escapes are scanned as they are written, each up to
the character that cannot belong to it. -/

theorem isUnescaped_iff : isUnescaped c = true ↔ c ≠ '"' ∧ c ≠ '\\' ∧ isPlain c = true := by
  simp [isUnescaped, and_assoc]

/-- A text without escapes is taken up to its quote. -/
theorem takeBasic_unescaped {fuel : Nat} (htext : ∀ c ∈ cs, isUnescaped c = true)
    (hfuel : cs.length < fuel) : takeBasic fuel (cs ++ '"' :: rest) = some (cs, rest) := by
  induction cs generalizing fuel with
  | nil =>
    cases fuel with
    | zero => cases hfuel
    | succ fuel => rfl
  | cons c cs ih =>
    cases fuel with
    | zero => cases hfuel
    | succ fuel =>
      obtain ⟨hquote, hescape, hplain⟩ := isUnescaped_iff.mp (htext c List.mem_cons_self)
      rw [List.cons_append, takeBasic, if_neg hquote, if_neg hescape, if_pos hplain,
        ih (fun c hc => htext c (List.mem_cons_of_mem _ hc)) (Nat.lt_of_succ_lt_succ hfuel)]
      rfl

/-- One quote begins a text on one line. -/
theorem takeString_of_ne (h : ∀ cs', cs ≠ '"' :: '"' :: cs') :
    takeString ('"' :: cs) = takeBasic (cs.length + 1) cs := by
  unfold takeString
  split
  · rename_i heq; exact absurd (List.cons.inj heq).2 (h _)
  · rename_i heq; cases heq
  · rename_i heq; cases heq; rfl
  · rename_i heq; cases heq
  · rename_i _ _ hbasic _; exact absurd rfl (hbasic _)

/-- A text in quotes without escapes is taken as it is. -/
theorem takeString_unescaped (htext : IsUnescaped text) :
    takeString ('"' :: (text.toList ++ '"' :: '\n' :: rest)) =
      some (text.toList, '\n' :: rest) := by
  rw [takeString_of_ne]
  · refine takeBasic_unescaped htext ?_
    simp only [List.length_append]
    omega
  · intro cs' heq
    cases hcs : text.toList with
    | nil =>
      rw [hcs] at heq
      cases heq
    | cons c cs =>
      rw [hcs] at heq
      have hc := isUnescaped_iff.mp (htext c (hcs ▸ List.mem_cons_self))
      exact hc.1 (List.cons.inj heq).1

/-- A text that begins like a key begins with nothing else. -/
theorem cons_ne_of_isKeyChar {d : Char} (hc : isKeyChar c = true) (hd : isKeyChar d = false)
    (rest : List Char) : c :: cs ≠ d :: rest := by
  intro h
  obtain ⟨rfl, -⟩ := List.cons.inj h
  exact Bool.eq_false_iff.mp hd hc

/-- There is no blank in front of a key. -/
theorem skipBlank_of_isKeyChar (hc : isKeyChar c = true) : skipBlank (c :: cs) = c :: cs := by
  refine List.dropWhile_cons_of_neg fun hblank => ?_
  obtain rfl | rfl : c = ' ' ∨ c = '\t' := by simpa [isBlank] using hblank
  · exact absurd hc (by decide)
  · exact absurd hc (by decide)

/-- A bare key has a first character. -/
theorem IsBareKey.exists_cons (hname : IsBareKey name) :
    ∃ c cs, name.toList = c :: cs ∧ isKeyChar c = true := by
  have hne : name.toList ≠ [] := fun h => hname.1 (String.toList_inj.mp h)
  obtain ⟨c, cs, hcs⟩ := List.exists_cons_of_ne_nil hne
  exact ⟨c, cs, hcs, hname.2 c (hcs ▸ List.mem_cons_self)⟩

/-- A bare key is taken up to the blank behind it. -/
theorem takePart_bare (hname : IsBareKey name) :
    takePart (name.toList ++ ' ' :: '=' :: rest) = some (name, ' ' :: '=' :: rest) := by
  have hstop : ∀ c ∈ (' ' :: '=' :: rest).head?, isKeyChar c = false := by
    rintro _ ⟨⟩
    decide
  obtain ⟨htake, hdrop⟩ := Text.takeWhile_dropWhile_append hname.2 hstop
  have hname' : String.ofList name.toList = name := String.ofList_toList
  obtain ⟨c, cs, hcs, hc⟩ := hname.exists_cons
  rw [hcs] at htake hdrop hname' ⊢
  unfold takePart
  split
  · exact absurd ‹_› (cons_ne_of_isKeyChar hc (by decide) _)
  · exact absurd ‹_› (cons_ne_of_isKeyChar hc (by decide) _)
  · rw [htake, hdrop]
    exact congrArg (fun text => some (text, _)) hname'

theorem takeKey_bare (hname : IsBareKey name) (fuel : Nat) :
    takeKey (fuel + 1) (name.toList ++ ' ' :: '=' :: rest) = some ([name], '=' :: rest) := by
  rw [takeKey, takePart_bare hname]
  rfl

theorem takeLineEnd_break (rest : List Char) : takeLineEnd ('\n' :: rest) = some rest :=
  rfl

/-- A line that begins like a key is a pair. -/
theorem take?_of_isKeyChar (hc : isKeyChar c = true) : Statement.take? (c :: cs) =
    match takePath (c :: cs) with
    | none => none
    | some (parts, cs) =>
      match skipBlank cs with
      | '=' :: cs =>
        (takeValue 0 (cs.length + 1) (skipBlank cs)).map fun (value, rest) =>
          (.pair parts value, rest)
      | _ => none := by
  unfold Statement.take?
  rw [skipBlank_of_isKeyChar hc]
  split
  · exact absurd ‹_› (List.cons_ne_nil c cs)
  · exact absurd ‹_› (cons_ne_of_isKeyChar hc (by decide) _)
  · exact absurd ‹_› (cons_ne_of_isKeyChar hc (by decide) _)
  · exact absurd ‹_› (cons_ne_of_isKeyChar hc (by decide) _)
  · exact absurd ‹_› (cons_ne_of_isKeyChar hc (by decide) _)
  · exact absurd ‹_› (cons_ne_of_isKeyChar hc (by decide) _)
  · rfl

theorem line_append (name text : String) (rest : List Char) : line (name, text) ++ rest =
    name.toList ++ ' ' :: '=' :: ' ' :: '"' :: (text.toList ++ '"' :: '\n' :: rest) := by
  simp [line]

/-- A line is scanned as the pair that was written. -/
theorem take?_line (hname : IsBareKey name) (htext : IsUnescaped text) :
    Statement.take? (line (name, text) ++ rest) =
      some (.pair [name] (.string text), '\n' :: rest) := by
  have hpath : takePath (line (name, text) ++ rest) =
      some ([name], '=' :: ' ' :: '"' :: (text.toList ++ '"' :: '\n' :: rest)) := by
    rw [line_append, takePath, takeKey_bare hname]
    rfl
  have hvalue (fuel : Nat) : takeValue 0 (fuel + 1) ('"' :: (text.toList ++ '"' :: '\n' :: rest)) =
      some (.string text, '\n' :: rest) := by
    rw [takeValue, takeString_unescaped htext]
    simp only [Option.map_some, String.ofList_toList]
  obtain ⟨c, cs, hcs, hc⟩ := hname.exists_cons
  rw [line_append, hcs, List.cons_append] at hpath ⊢
  rw [take?_of_isKeyChar hc, hpath]
  exact congrArg (Option.map _) (hvalue _)

/-! ## The document

Lines follow each other and no name stands twice, so the document holds the pairs in their order. -/

/-- What the line of a pair states. -/
def stated (pair : String × String) : Statement :=
  .pair [pair.1] (.string pair.2)

/-- The entry that the line of a pair makes. -/
def entry (pair : String × String) : String × Toml :=
  (pair.1, .string pair.2)

section Document

variable {pairs : List (String × String)}

/-- The lines are scanned one after the other. -/
theorem takeAll?_lines (hbare : ∀ pair ∈ pairs, IsBareKey pair.1)
    (htexts : ∀ pair ∈ pairs, IsUnescaped pair.2) {fuel : Nat} (hfuel : pairs.length ≤ fuel) :
    Statement.takeAll? fuel (pairs.flatMap line) = some (pairs.map stated) := by
  induction pairs generalizing fuel with
  | nil =>
    unfold Statement.takeAll?
    rfl
  | cons pair pairs ih =>
    cases fuel with
    | zero => cases hfuel
    | succ fuel =>
      have htake : Statement.take? (line pair ++ pairs.flatMap line) = _ :=
        take?_line (hbare pair List.mem_cons_self) (htexts pair List.mem_cons_self)
      have hrest := ih (fun p hp => hbare p (List.mem_cons_of_mem _ hp))
        (fun p hp => htexts p (List.mem_cons_of_mem _ hp)) (Nat.le_of_succ_le_succ hfuel)
      have hne : line pair ++ pairs.flatMap line ≠ [] := by
        rw [line_append]
        exact List.append_ne_nil_of_right_ne_nil _ (List.cons_ne_nil _ _)
      obtain ⟨c, cs, hcs⟩ := List.exists_cons_of_ne_nil hne
      rw [hcs] at htake
      rw [List.flatMap_cons, hcs, Statement.takeAll?, htake]
      · simp only [takeLineEnd_break, hrest]
        rfl
      · exact List.cons_ne_nil c cs

/-- A pair with a new name is added at the end. -/
theorem extend?_pair {root : Entries} {pair : String × String} (hnew : root.lookup pair.1 = none) :
    Document.extend? { root } (stated pair) = some { root := root ++ [entry pair] } := by
  have hadd : addNew root pair.1 (.string pair.2) = some (root ++ [entry pair]) := by
    rw [addNew, hnew]
    rfl
  simp [Document.extend?, stated, splitPath, modifyAt, addAt, hadd]

/-- Pairs with different names make a document. -/
theorem ofStatements?_pairs {root : Entries} (hkeys : (pairs.map Prod.fst).Nodup)
    (hnew : ∀ pair ∈ pairs, root.lookup pair.1 = none) :
    Document.ofStatements? { root } (pairs.map stated) =
      some { root := root ++ pairs.map entry } := by
  induction pairs generalizing root with
  | nil => rw [List.map_nil, List.map_nil, List.append_nil, Document.ofStatements?]
  | cons pair pairs ih =>
    obtain ⟨hfirst, hkeys⟩ := List.nodup_cons.mp hkeys
    have hnew' : ∀ p ∈ pairs, (root ++ [entry pair]).lookup p.1 = none := by
      intro p hp
      have hne : p.1 ≠ pair.1 := fun h => hfirst (h ▸ List.mem_map_of_mem hp)
      rw [List.lookup_append, hnew p (List.mem_cons_of_mem _ hp)]
      rw [List.lookup_cons, entry, beq_eq_false_iff_ne.mpr hne]
      rfl
    rw [List.map_cons, Document.ofStatements?, extend?_pair (hnew pair List.mem_cons_self)]
    simp only [ih hkeys hnew', List.map_cons, List.append_assoc, List.cons_append, List.nil_append]

/-- Each line has characters. -/
theorem length_le_length_flatMap_line (pairs : List (String × String)) :
    pairs.length ≤ (pairs.flatMap line).length := by
  induction pairs with
  | nil => exact Nat.le_refl 0
  | cons pair pairs ih =>
    rw [List.flatMap_cons, line_append]
    simp only [List.length_append, List.length_cons]
    omega

/-- Without a byte order mark the text is scanned from its start. -/
theorem parse?_of_ne {text : String} (h : ∀ cs, text.toList ≠ '\uFEFF' :: cs) :
    parse? text = match Statement.takeAll? (text.toList.length + 1) text.toList with
      | none => none
      | some statements => (Document.ofStatements? {} statements).map Document.root := by
  unfold parse?
  split
  · exact absurd ‹_› (h _)
  · rfl

/-- The entries of a document of lines are the keys and their texts, in the order of the lines. -/
theorem parse?_lines {text : String} (htext : text.toList = pairs.flatMap line)
    (hbare : ∀ pair ∈ pairs, IsBareKey pair.1) (htexts : ∀ pair ∈ pairs, IsUnescaped pair.2)
    (hkeys : (pairs.map Prod.fst).Nodup) : parse? text = some (pairs.map entry) := by
  have hdocument := ofStatements?_pairs hkeys fun _ _ => List.lookup_nil
  have hlength := length_le_length_flatMap_line pairs
  have hmark : ∀ cs, text.toList ≠ '\uFEFF' :: cs := by
    intro cs hcs
    rw [htext] at hcs
    cases pairs with
    | nil => cases hcs
    | cons pair pairs =>
      obtain ⟨c, name, hname, hc⟩ := (hbare pair List.mem_cons_self).exists_cons
      rw [List.flatMap_cons, line_append, hname] at hcs
      exact cons_ne_of_isKeyChar hc (by decide) _ hcs
  rw [parse?_of_ne hmark, htext, takeAll?_lines hbare htexts (by omega)]
  exact congrArg (Option.map _) hdocument

end Document

end EdgeInclude.Toml
