import EdgeInclude.Proofs.Json.Strings
import EdgeInclude.Proofs.Text.Decimal
import EdgeInclude.Proofs.Text.Runs

/-!
# Reading JSON back

A reader of JSON text: white space between the parts is passed over, and the members of an object keep
the order in which they stand, those among them whose name comes twice. What is written is read back.

* **`read?`**: the value that a text spells, if it spells one.
* **`takeNumeral_numberChars`**: a number is read up to its last digit.
* **`takeValue_chars`**: a value is read up to its end, whatever follows that cannot belong to a number.
* **`exists_of_takeValue_string`**, **`exists_of_takeValue_object`**, **`exists_of_takeMembers`**: how a
  text begins off which a value was taken.
* **`read?_print`**: what is written is read back.
-/

namespace EdgeInclude.Json

open Scanner

namespace Scanner

/-- The whole number that a numeral spells. One with a point or an exponent spells none. -/
def Numeral.whole? (numeral : Numeral) : Option Int :=
  match numeral.places, numeral.exponent with
  | none, none =>
    let n : Int := Text.digitsValue numeral.whole
    some (if numeral.isNegative then -n else n)
  | _, _ => none

mutual

/-- Takes a value; `fuel` bounds the length of the text. -/
def takeValue : (fuel : Nat) → List Char → Option (Json × List Char)
  | 0, _ => none
  | fuel + 1, cs =>
    match skipBlank cs with
    | '"' :: cs => (takeString cs).map fun (text, rest) => (.string text, rest)
    | '[' :: cs =>
      match skipBlank cs with
      | ']' :: rest => some (.array [], rest)
      | cs => (takeItems fuel cs).map fun (items, rest) => (.array items, rest)
    | '\x7b' :: cs =>
      match skipBlank cs with
      | '\x7d' :: rest => some (.object [], rest)
      | cs => (takeMembers fuel cs).map fun (members, rest) => (.object members, rest)
    | 'n' :: 'u' :: 'l' :: 'l' :: rest => some (.null, rest)
    | 't' :: 'r' :: 'u' :: 'e' :: rest => some (.bool true, rest)
    | 'f' :: 'a' :: 'l' :: 's' :: 'e' :: rest => some (.bool false, rest)
    | cs =>
      match takeNumeral cs with
      | some (numeral, rest) => numeral.whole?.map fun n => (.number n, rest)
      | none => none

/-- Takes the items of an array and its closing bracket. -/
def takeItems : (fuel : Nat) → List Char → Option (List Json × List Char)
  | 0, _ => none
  | fuel + 1, cs =>
    match takeValue fuel cs with
    | none => none
    | some (item, cs) =>
      match skipBlank cs with
      | ',' :: cs => (takeItems fuel cs).map fun (items, rest) => (item :: items, rest)
      | ']' :: rest => some ([item], rest)
      | _ => none

/-- Takes the members of an object and its closing brace. -/
def takeMembers : (fuel : Nat) → List Char → Option (List (String × Json) × List Char)
  | 0, _ => none
  | fuel + 1, cs =>
    match skipBlank cs with
    | '"' :: cs =>
      match takeString cs with
      | none => none
      | some (name, cs) =>
        match skipBlank cs with
        | ':' :: cs =>
          match takeValue fuel cs with
          | none => none
          | some (value, cs) =>
            match skipBlank cs with
            | ',' :: cs =>
              (takeMembers fuel cs).map fun (members, rest) => ((name, value) :: members, rest)
            | '\x7d' :: rest => some ([(name, value)], rest)
            | _ => none
        | _ => none
    | _ => none

end

end Scanner

/-- The value that a text spells. -/
def read? (text : String) : Option Json :=
  match takeValue (text.toList.length + 1) text.toList with
  | some (value, rest) => if skipBlank rest = [] then some value else none
  | none => none

namespace Scanner

variable {c : Char} {cs rest : List Char} {fuel : Nat} {name text : String} {n : Int}
variable {value : Json} {items : List Json} {members : List (String × Json)}

/-! ## Numbers

A number is told from what stands behind it: no digit, no point and no exponent. -/

/-- A number in front of the text ends there. -/
def EndsNumber (rest : List Char) : Prop :=
  ∀ c ∈ rest.head?, Text.isDigit c = false ∧ c ≠ '.' ∧ c ≠ 'e' ∧ c ≠ 'E'

/-- Digits are taken up to the last one. -/
theorem takeWhole_digits (n : Nat) (hrest : EndsNumber rest) :
    takeWhole (Text.digits n ++ rest) = some (Text.digits n, rest) := by
  obtain ⟨htake, hdrop⟩ := Text.takeWhile_dropWhile_append
    (fun d hd => Text.isDigit_of_mem_digits (n := n) hd) fun c hc => (hrest c hc).1
  obtain ⟨d, ds, hds⟩ := List.exists_cons_of_ne_nil (Text.digits_ne_nil n)
  have hdigits : takeDigits (Text.digits n ++ rest) = some (Text.digits n, rest) := by
    rw [takeDigits, htake, hdrop, hds]
  rw [takeWhole, hdigits]
  split
  · -- only zero begins with a zero, and it has one digit
    rename_i heq
    obtain ⟨hzero, -⟩ := Prod.mk.inj (Option.some.inj heq)
    rcases Nat.eq_zero_or_pos n with rfl | hpos
    · have hsingle : Text.digits 0 = ['0'] := rfl
      rw [hsingle] at hzero
      cases hzero
    · exact absurd (congrArg List.head? hzero) (Text.head?_digits_ne_zero hpos)
  · rfl

/-- There are no places to take. -/
theorem takePlaces_of_endsNumber (hrest : EndsNumber rest) : takePlaces rest = some (none, rest) := by
  unfold takePlaces
  split
  · exact absurd rfl (hrest '.' rfl).2.1
  · rfl

/-- There is no exponent to take. -/
theorem takeExponent_of_endsNumber (hrest : EndsNumber rest) :
    takeExponent rest = some (none, rest) := by
  cases rest with
  | nil => rfl
  | cons c cs =>
    obtain ⟨-, -, hlow, hhigh⟩ := hrest c rfl
    rw [takeExponent, if_neg (not_or.mpr ⟨hlow, hhigh⟩)]

/-- The numeral as which a number is written. -/
def numeralOf (n : Int) : Numeral :=
  { isNegative := decide (n < 0), whole := Text.digits n.natAbs }

/-- A digit is not any other character. -/
theorem ne_of_isDigit {d : Char} (hc : Text.isDigit c = true) (hd : Text.isDigit d = false) :
    c ≠ d := by
  rintro rfl
  rw [hc] at hd
  cases hd

theorem exists_digits_eq (n : Nat) : ∃ d ds, Text.digits n = d :: ds ∧ Text.isDigit d = true := by
  obtain ⟨d, ds, hds⟩ := List.exists_cons_of_ne_nil (Text.digits_ne_nil n)
  exact ⟨d, ds, hds, Text.isDigit_of_mem_digits (n := n) (hds ▸ List.mem_cons_self)⟩

/-- A number is read up to its last digit. -/
theorem takeNumeral_numberChars (n : Int) (hrest : EndsNumber rest) :
    takeNumeral (numberChars n ++ rest) = some (numeralOf n, rest) := by
  have hwhole := takeWhole_digits n.natAbs hrest
  have hplaces := takePlaces_of_endsNumber hrest
  have hexponent := takeExponent_of_endsNumber hrest
  by_cases hn : n < 0
  · rw [numberChars, if_pos hn, List.cons_append, takeNumeral]
    simp only [hwhole, hplaces, hexponent, Option.map_some, numeralOf, hn, decide_true]
  · have hsign : ∀ cs, Text.digits n.natAbs ++ rest = '-' :: cs → False := by
      intro cs h
      obtain ⟨d, ds, hds, hd⟩ := exists_digits_eq n.natAbs
      rw [hds, List.cons_append] at h
      exact ne_of_isDigit hd rfl (List.cons.inj h).1
    rw [numberChars, if_neg hn, takeNumeral]
    · simp only [hwhole, hplaces, hexponent, Option.map_some, numeralOf, hn, decide_false]
    · exact hsign

theorem whole?_numeralOf (n : Int) : (numeralOf n).whole? = some n := by
  simp only [Numeral.whole?, numeralOf, Text.digitsValue_digits, decide_eq_true_eq]
  split <;> congr 1 <;> omega

/-! ## Values

What a value begins with tells its kind, so no kind is tried that it does not have. -/

/-- What a value begins with: something that is neither blank nor the end of an array. -/
def Begins (cs : List Char) : Prop :=
  ∃ c rest, cs = c :: rest ∧ isBlank c = false ∧ c ≠ ']'

theorem Begins.append (h : Begins cs) (rest : List Char) : Begins (cs ++ rest) := by
  obtain ⟨c, tail, rfl, hblank, hend⟩ := h
  exact ⟨c, tail ++ rest, rfl, hblank, hend⟩

theorem Begins.skipBlank_eq (h : Begins cs) : skipBlank cs = cs := by
  obtain ⟨c, rest, rfl, hblank, -⟩ := h
  exact List.dropWhile_cons_of_neg (by rw [hblank]; exact Bool.false_ne_true)

theorem isBlank_of_isDigit (h : Text.isDigit c = true) : isBlank c = false := by
  simp only [isBlank, ne_of_isDigit h (d := ' ') rfl, ne_of_isDigit h (d := '\n') rfl,
    ne_of_isDigit h (d := '\t') rfl, ne_of_isDigit h (d := '\r') rfl, decide_false, Bool.or_self]

theorem begins_quoteChars (text : String) : Begins (quoteChars text) :=
  ⟨'"', _, rfl, rfl, by decide⟩

/-- A number begins with a digit or a sign. -/
theorem exists_numberChars_eq (n : Int) :
    ∃ c cs, numberChars n = c :: cs ∧ (c = '-' ∨ Text.isDigit c = true) := by
  unfold numberChars
  split
  · exact ⟨'-', _, rfl, .inl rfl⟩
  · obtain ⟨d, ds, hds, hd⟩ := exists_digits_eq n.natAbs
    exact ⟨d, ds, hds, .inr hd⟩

theorem begins_numberChars (n : Int) : Begins (numberChars n) := by
  obtain ⟨c, cs, hcs, rfl | hc⟩ := exists_numberChars_eq n
  · exact ⟨'-', cs, hcs, rfl, by decide⟩
  · exact ⟨c, cs, hcs, isBlank_of_isDigit hc, ne_of_isDigit hc rfl⟩

/-- Each value begins as one does. -/
theorem begins_chars (value : Json) : Begins value.chars := by
  cases value with
  | null => exact ⟨'n', _, rfl, rfl, by decide⟩
  | bool b => cases b with
    | false => exact ⟨'f', _, rfl, rfl, by decide⟩
    | true => exact ⟨'t', _, rfl, rfl, by decide⟩
  | number n => exact begins_numberChars n
  | string text => exact begins_quoteChars text
  | array items => exact ⟨'[', _, rfl, rfl, by decide⟩
  | object members => exact ⟨'\x7b', _, rfl, rfl, by decide⟩

/-- A text is read back. -/
theorem takeValue_quoteChars (fuel : Nat) (text : String) (rest : List Char) :
    takeValue (fuel + 1) (quoteChars text ++ rest) = some (.string text, rest) := by
  have hskip : skipBlank (quoteChars text ++ rest) =
      '"' :: (text.toList.flatMap escapeChar ++ '"' :: rest) := by
    rw [((begins_quoteChars text).append rest).skipBlank_eq]
    simp [quoteChars]
  rw [takeValue, hskip]
  simp only [takeString_quoted, Option.map_some]

/-- A number is read back. -/
theorem takeValue_numberChars (fuel : Nat) (n : Int) (hrest : EndsNumber rest) :
    takeValue (fuel + 1) (numberChars n ++ rest) = some (.number n, rest) := by
  have hnumeral := takeNumeral_numberChars n hrest
  -- no other value begins with a sign or a digit
  have hne : ∀ d ∈ ['"', '[', '\x7b', 'n', 't', 'f'], ∀ cs, numberChars n ++ rest ≠ d :: cs := by
    intro d hd cs h
    have hother : ∀ d ∈ ['"', '[', '\x7b', 'n', 't', 'f'], d ≠ '-' ∧ Text.isDigit d = false := by
      simp [Text.isDigit]
    obtain ⟨c, tail, hcs, hc⟩ := exists_numberChars_eq n
    rw [hcs, List.cons_append] at h
    obtain ⟨hsign, hdigit⟩ := hother d hd
    rcases hc with rfl | hc
    · exact hsign (List.cons.inj h).1.symm
    · exact ne_of_isDigit hc hdigit (List.cons.inj h).1
  rw [takeValue, ((begins_numberChars n).append rest).skipBlank_eq]
  split
  iterate 6
    rename_i h
    exact absurd h (hne _ (by decide) _)
  · rw [hnumeral]
    simp only [whole?_numeralOf, Option.map_some]


/-! ## Items and members

The induction is on values and the lists in them at once; the fuel is more than the characters there
are. -/

theorem takeItems_last (h : takeValue fuel cs = some (value, ']' :: rest)) :
    takeItems (fuel + 1) cs = some ([value], rest) := by
  rw [takeItems, h]
  rfl

/-- Behind a comma there is another item. -/
theorem takeItems_more (h : takeValue fuel cs = some (value, ',' :: rest)) :
    takeItems (fuel + 1) cs =
      (takeItems fuel rest).map fun (items, rest) => (value :: items, rest) := by
  rw [takeItems, h]
  rfl

/-- A member is read up to the end of its value, and what follows decides how to go on. -/
theorem takeMembers_member (name : String) (h : takeValue fuel cs = some (value, rest)) :
    takeMembers (fuel + 1) (quoteChars name ++ ':' :: cs) =
      match skipBlank rest with
      | ',' :: cs =>
        (takeMembers fuel cs).map fun (members, rest) => ((name, value) :: members, rest)
      | '\x7d' :: rest => some ([(name, value)], rest)
      | _ => none := by
  have hskip : skipBlank (quoteChars name ++ ':' :: cs) =
      '"' :: (name.toList.flatMap escapeChar ++ '"' :: ':' :: cs) := by
    rw [((begins_quoteChars name).append _).skipBlank_eq]
    simp [quoteChars]
  have hcolon : skipBlank (':' :: cs) = ':' :: cs := rfl
  rw [takeMembers, hskip]
  simp only [takeString_quoted, hcolon, h]

/-- A bracket opens an array. -/
theorem takeValue_items (h : Begins cs) :
    takeValue (fuel + 1) ('[' :: cs) =
      (takeItems fuel cs).map fun (items, rest) => (.array items, rest) := by
  have hopen : skipBlank ('[' :: cs) = '[' :: cs := rfl
  rw [takeValue, hopen]
  simp only [h.skipBlank_eq]
  obtain ⟨c, tail, rfl, -, hend⟩ := h
  split
  · rename_i heq
    exact absurd (List.cons.inj heq).1 hend
  · rfl

theorem takeValue_members (cs : List Char) :
    takeValue (fuel + 1) ('\x7b' :: '"' :: cs) =
      (takeMembers fuel ('"' :: cs)).map fun (members, rest) => (.object members, rest) :=
  rfl

theorem endsNumber_cons (h : Text.isDigit c = false ∧ c ≠ '.' ∧ c ≠ 'e' ∧ c ≠ 'E') :
    EndsNumber (c :: cs) := by
  rintro _ ⟨⟩
  exact h

/-- Items begin as the first of them does. -/
theorem begins_itemChars (item : Json) (items : List Json) :
    Begins (itemChars (item :: items)) := by
  cases items with
  | nil => exact begins_chars item
  | cons next items => exact (begins_chars item).append _

/-- Members begin with the quote of a name. -/
theorem exists_memberChars_eq (member : String × Json) (members : List (String × Json)) :
    ∃ cs, memberChars (member :: members) = '"' :: cs := by
  cases members with
  | nil => exact ⟨_, rfl⟩
  | cons next members => exact ⟨_, rfl⟩

mutual

/-- A value is read up to its end. The induction follows the value, and the fuel lasts because each part
of a value is shorter than the whole. -/
theorem takeValue_chars (value : Json) (fuel : Nat) (rest : List Char)
    (hfuel : value.chars.length < fuel) (hrest : EndsNumber rest) :
    takeValue fuel (value.chars ++ rest) = some (value, rest) := by
  obtain ⟨fuel, rfl⟩ := Nat.exists_eq_succ_of_ne_zero (Nat.ne_zero_of_lt hfuel)
  match value with
  | .null => rfl
  | .bool true => rfl
  | .bool false => rfl
  | .number n => exact takeValue_numberChars fuel n hrest
  | .string text => exact takeValue_quoteChars fuel text rest
  | .array [] => rfl
  | .array (item :: items) =>
    -- the brackets are part of the length, so one unit less is enough for what stands between them
    simp only [chars, List.length_cons, List.length_append, List.length_nil] at hfuel
    have hitems := takeItems_itemChars item items fuel rest (by omega)
    rw [chars, List.cons_append, List.cons_append, List.append_assoc, List.singleton_append,
      takeValue_items ((begins_itemChars item items).append _), hitems]
    rfl
  | .object [] => rfl
  | .object (member :: members) =>
    simp only [chars, List.length_cons, List.length_append, List.length_nil] at hfuel
    have hmembers := takeMembers_memberChars member members fuel rest (by omega)
    obtain ⟨cs, hcs⟩ := exists_memberChars_eq member members
    rw [hcs, List.cons_append] at hmembers
    rw [chars, hcs, List.cons_append, List.cons_append, List.append_assoc, List.singleton_append,
      List.cons_append, takeValue_members, hmembers]
    rfl
termination_by fuel

/-- Items are read back up to their bracket. -/
theorem takeItems_itemChars (item : Json) (items : List Json) (fuel : Nat) (rest : List Char)
    (hfuel : (itemChars (item :: items)).length + 1 < fuel) :
    takeItems fuel (itemChars (item :: items) ++ ']' :: rest) = some (item :: items, rest) := by
  obtain ⟨fuel, rfl⟩ := Nat.exists_eq_succ_of_ne_zero (Nat.ne_zero_of_lt hfuel)
  match items with
  | [] =>
    simp only [itemChars] at hfuel
    -- a number ends before the bracket
    exact takeItems_last
      (takeValue_chars item fuel (']' :: rest) (by omega) (endsNumber_cons (by decide)))
  | next :: items =>
    simp only [itemChars, List.length_append, List.length_cons] at hfuel
    have hrest := takeItems_itemChars next items fuel rest (by omega)
    rw [itemChars, List.append_assoc, List.cons_append,
      takeItems_more (takeValue_chars item fuel _ (by omega) (endsNumber_cons (by decide))), hrest]
    rfl
termination_by fuel

/-- Members are read back up to their brace. -/
theorem takeMembers_memberChars (member : String × Json) (members : List (String × Json))
    (fuel : Nat) (rest : List Char) (hfuel : (memberChars (member :: members)).length + 1 < fuel) :
    takeMembers fuel (memberChars (member :: members) ++ '\x7d' :: rest) =
      some (member :: members, rest) := by
  obtain ⟨fuel, rfl⟩ := Nat.exists_eq_succ_of_ne_zero (Nat.ne_zero_of_lt hfuel)
  obtain ⟨name, value⟩ := member
  match members with
  | [] =>
    simp only [memberChars, List.length_append, List.length_cons] at hfuel
    rw [memberChars, List.append_assoc, List.cons_append, takeMembers_member name
      (takeValue_chars value fuel _ (by omega) (endsNumber_cons (by decide)))]
    rfl
  | next :: members =>
    simp only [memberChars, List.length_append, List.length_cons] at hfuel
    have hrest := takeMembers_memberChars next members fuel rest (by omega)
    -- behind the value stands the comma
    have hblank : skipBlank (',' :: (memberChars (next :: members) ++ '\x7d' :: rest)) =
        ',' :: (memberChars (next :: members) ++ '\x7d' :: rest) := rfl
    rw [memberChars, List.append_assoc, List.cons_append, List.append_assoc, List.cons_append,
      takeMembers_member name
        (takeValue_chars value fuel _ (by omega) (endsNumber_cons (by decide))), hblank]
    simp only [hrest, Option.map_some]
termination_by fuel

end

/-! ## What a text is made of

Taking a value the other way round: what was taken says how the text in front of the rest begins. -/

theorem length_lt_of_skipBlank {cs' : List Char} (h : skipBlank cs = c :: cs') :
    cs'.length < cs.length := by
  have hle : (skipBlank cs).length ≤ cs.length := List.length_dropWhile_le _ _
  rw [h, List.length_cons] at hle
  exact hle

/-- A string takes up a quote at least. -/
theorem length_lt_of_takePieces {pieces : List Piece} (h : takePieces cs = some (pieces, rest)) :
    rest.length < cs.length := by
  fun_induction takePieces cs generalizing pieces rest with
  | case2 rest' =>
    cases h
    exact Nat.lt_succ_self _
  -- an escape, or a character that stands for itself, and the pieces behind it
  | case3 _ _ _ _ _ _ _ _ htail _ ih | case5 _ _ _ _ _ _ htail _ ih | case8 _ _ _ _ _ _ _ _ htail ih =>
    cases h
    have hlt := ih htail
    simp only [List.length_cons]
    omega
  | _ => cases h

/-- The text of a string is that of its pieces. -/
theorem exists_of_takeString (h : takeString cs = some (text, rest)) :
    ∃ pieces, takePieces cs = some (pieces, rest) := by
  unfold takeString at h
  split at h
  · rename_i pieces rest' hpieces
    obtain ⟨chars, -, heq⟩ := Option.map_eq_some_iff.mp h
    cases heq
    exact ⟨pieces, hpieces⟩
  · cases h

/-- A value that is a text is a string between quotes. -/
theorem exists_of_takeValue_string (h : takeValue fuel cs = some (.string text, rest)) :
    ∃ cs', skipBlank cs = '"' :: cs' ∧ takeString cs' = some (text, rest) := by
  cases fuel with
  | zero => cases h
  | succ fuel =>
    rw [takeValue] at h
    split at h
    · rename_i cs' hcs
      obtain ⟨_, hstring, heq⟩ := Option.map_eq_some_iff.mp h
      cases heq
      exact ⟨cs', hcs, hstring⟩
    · split at h
      · cases h
      · obtain ⟨_, -, heq⟩ := Option.map_eq_some_iff.mp h
        cases heq
    · split at h
      · cases h
      · obtain ⟨_, -, heq⟩ := Option.map_eq_some_iff.mp h
        cases heq
    · cases h
    · cases h
    · cases h
    · split at h
      · obtain ⟨_, -, heq⟩ := Option.map_eq_some_iff.mp h
        cases heq
      · cases h

/-- An object has an opening brace, and then its closing brace or its members. -/
theorem exists_of_takeValue_object (h : takeValue fuel cs = some (.object members, rest)) :
    ∃ fuel' cs', skipBlank cs = '\x7b' :: cs' ∧
      (members = [] ∧ skipBlank cs' = '\x7d' :: rest ∨
        (∀ tail, skipBlank cs' ≠ '\x7d' :: tail) ∧
          takeMembers fuel' (skipBlank cs') = some (members, rest)) := by
  cases fuel with
  | zero => cases h
  | succ fuel =>
    rw [takeValue] at h
    split at h
    · obtain ⟨_, -, heq⟩ := Option.map_eq_some_iff.mp h
      cases heq
    · split at h
      · cases h
      · obtain ⟨_, -, heq⟩ := Option.map_eq_some_iff.mp h
        cases heq
    · rename_i cs' hcs
      split at h
      · rename_i tail hclosed
        cases h
        exact ⟨fuel, cs', hcs, .inl ⟨rfl, hclosed⟩⟩
      · rename_i hopen
        obtain ⟨_, hmembers, heq⟩ := Option.map_eq_some_iff.mp h
        cases heq
        exact ⟨fuel, cs', hcs, .inr ⟨hopen, hmembers⟩⟩
    · cases h
    · cases h
    · cases h
    · split at h
      · obtain ⟨_, -, heq⟩ := Option.map_eq_some_iff.mp h
        cases heq
      · cases h

/-- Members are a name, a colon and a value, and then the closing brace or a comma and the others. -/
theorem exists_of_takeMembers (h : takeMembers fuel cs = some (members, rest)) :
    ∃ fuel' cs₁ name cs₂ cs₃ value cs₄ others, fuel = fuel' + 1 ∧ skipBlank cs = '"' :: cs₁ ∧
      takeString cs₁ = some (name, cs₂) ∧ skipBlank cs₂ = ':' :: cs₃ ∧
      takeValue fuel' cs₃ = some (value, cs₄) ∧ members = (name, value) :: others ∧
      (others = [] ∧ skipBlank cs₄ = '\x7d' :: rest ∨
        ∃ cs₅, skipBlank cs₄ = ',' :: cs₅ ∧ takeMembers fuel' cs₅ = some (others, rest)) := by
  cases fuel with
  | zero => cases h
  | succ fuel =>
    rw [takeMembers] at h
    split at h
    · rename_i cs₁ hcs
      split at h
      · cases h
      rename_i name cs₂ hname
      split at h
      · rename_i cs₃ hcolon
        split at h
        · cases h
        rename_i value cs₄ hvalue
        split at h
        · rename_i cs₅ hcomma
          obtain ⟨_, hothers, heq⟩ := Option.map_eq_some_iff.mp h
          cases heq
          exact ⟨fuel, cs₁, name, cs₂, cs₃, value, cs₄, _, rfl, hcs, hname, hcolon, hvalue, rfl,
            .inr ⟨cs₅, hcomma, hothers⟩⟩
        · rename_i tail hclosed
          cases h
          exact ⟨fuel, cs₁, name, cs₂, cs₃, value, cs₄, [], rfl, hcs, hname, hcolon, hvalue, rfl,
            .inl ⟨rfl, hclosed⟩⟩
        · cases h
      · cases h
    · cases h

end Scanner

/-- **What is written is read back.** -/
theorem read?_print (value : Json) : read? value.print = some value := by
  have hread := takeValue_chars value (value.chars.length + 1) [] (Nat.lt_succ_self _)
    (fun c hc => by cases hc)
  rw [List.append_nil] at hread
  rw [read?, print, String.toList_ofList, hread]
  rfl

end EdgeInclude.Json
