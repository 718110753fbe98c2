import Mathlib.Data.List.Basic
import EdgeInclude.Log.Logger
import EdgeInclude.Proofs.Text.OneLine

/-!
# Lines of the log are unbroken

Whatever values an entry carries, its structured line is unbroken if strings are written without line
feeds and carriage returns, as `Json.quoteChars` writes them: it escapes each control character. The line
for people writes the message, the component and the names of the fields as they are, so these must be
unbroken too.

* **`Json.isOneLine_quoteChars`**: a string is written on one line.
* **`Json.isUnbroken_chars`**: the text of a value, however strings are written.
* **`Entry.isUnbroken_toJson`**, **`Entry.isUnbroken_toHuman`**: the lines of an entry.
* **`Logger.toList_line?`**: a higher least level passes over lines and changes none.
-/

namespace EdgeInclude

namespace Json

open Text

/-- No escaped character breaks a line. -/
theorem isOneLine_escapeChar (c : Char) : IsOneLine (escapeChar c) := by
  unfold escapeChar
  split_ifs with _ _ _ _ _ _ _ hlow
  -- an escape is made of a backslash, letters and digits
  iterate 7 simp
  · simp [hexPair, le_toNat_digitChar]
  · exact isOneLine_cons.mpr ⟨Nat.le_of_not_lt hlow, isOneLine_nil⟩

@[simp]
theorem isOneLine_quoteChars (text : String) : IsOneLine (quoteChars text) := by
  have hinside := IsOneLine.flatMap fun c (_ : c ∈ text.toList) => isOneLine_escapeChar c
  simp [quoteChars, hinside]

@[simp]
theorem isUnbroken_numberChars (n : Int) : IsUnbroken (numberChars n) := by
  refine IsOneLine.isUnbroken ?_
  unfold numberChars
  split <;> simp

section Quote

variable {quote : String → List Char}

mutual

/-- The text of a value is unbroken, since that of each of its parts is. -/
theorem isUnbroken_chars (hquote : ∀ text, IsUnbroken (quote text)) :
    (value : Json) → IsUnbroken (value.chars quote)
  | .null => by simp [chars]
  | .bool true => by simp [chars]
  | .bool false => by simp [chars]
  | .number n => by simp [chars]
  | .string text => by simp [chars, hquote]
  | .array items => by simp [chars, isUnbroken_itemChars hquote items]
  | .object members => by simp [chars, isUnbroken_memberChars hquote members]

/-- No items break a line if no quoted text does. -/
theorem isUnbroken_itemChars (hquote : ∀ text, IsUnbroken (quote text)) :
    (items : List Json) → IsUnbroken (itemChars items quote)
  | [] => by simp [itemChars]
  | [item] => by simp [itemChars, isUnbroken_chars hquote item]
  | item :: next :: rest => by
    simp [itemChars, isUnbroken_chars hquote item, isUnbroken_itemChars hquote (next :: rest)]

/-- No members break a line if no quoted text does. -/
theorem isUnbroken_memberChars (hquote : ∀ text, IsUnbroken (quote text)) :
    (members : List (String × Json)) → IsUnbroken (memberChars members quote)
  | [] => by simp [memberChars]
  | [(name, value)] => by simp [memberChars, hquote, isUnbroken_chars hquote value]
  | (name, value) :: next :: rest => by
    simp [memberChars, hquote, isUnbroken_chars hquote value,
      isUnbroken_memberChars hquote (next :: rest)]

end

theorem isUnbroken_print (hquote : ∀ text, IsUnbroken (quote text)) (value : Json) :
    IsUnbroken (value.print quote).toList := by
  rw [print, String.toList_ofList]
  exact isUnbroken_chars hquote value

theorem isUnbroken_printMembers (hquote : ∀ text, IsUnbroken (quote text))
    (members : List (String × Json)) : IsUnbroken (printMembers members quote).toList := by
  simp [printMembers, isUnbroken_memberChars hquote]

end Quote

end Json

namespace Log

open Text

theorem Level.isUnbroken_label (level : Level) : IsUnbroken level.label.toList := by
  cases level <;> simp [label]

/-! ## Entries

In the human form names stand as they are, so they must not break a line themselves. -/

namespace Fields

/-- Each field has a name that is unbroken. -/
def NamesUnbroken (f : Fields) : Prop :=
  ∀ field ∈ f.entries, IsUnbroken field.1.toList

theorem namesUnbroken_empty : NamesUnbroken {} :=
  List.forall_mem_nil _

/-- Setting a field adds no name but its own. -/
theorem NamesUnbroken.set {f : Fields} (h : f.NamesUnbroken) {name : String} (value : Json)
    (hname : IsUnbroken name.toList) : (f.set name value).NamesUnbroken := by
  intro field hfield
  rcases List.mem_append.mp hfield with hmem | hmem
  · exact h field (List.mem_filter.mp hmem).1
  · obtain rfl := List.mem_singleton.mp hmem
    exact hname

end Fields

variable {quote : String → List Char}

namespace Entry

variable (hquote : ∀ text, IsUnbroken (quote text))

include hquote

/-- The structured line of an entry is unbroken, whatever the entry holds. -/
theorem isUnbroken_toJson (e : Entry) : IsUnbroken (e.toJson quote).toList :=
  Json.isUnbroken_printMembers hquote e.members

theorem isUnbroken_fieldText {field : String × Json} (h : IsUnbroken field.1.toList) :
    IsUnbroken (fieldText field quote).toList := by
  simp [fieldText, h, Json.isUnbroken_print hquote]

theorem isUnbroken_of_mem_fieldTexts {e : Entry} {text : String} (h : e.fields.NamesUnbroken)
    (htext : text ∈ e.fieldTexts quote) : IsUnbroken text.toList := by
  obtain ⟨field, hfield, rfl⟩ := List.mem_map.mp (List.mem_mergeSort.mp htext)
  exact isUnbroken_fieldText hquote (h field hfield)

/-- The line for people is unbroken if what it writes as it is is. -/
theorem isUnbroken_toHuman {e : Entry} (hmessage : IsUnbroken e.message.toList)
    (hcomponent : ∀ name, e.component = some name → IsUnbroken name.toList)
    (hnames : e.fields.NamesUnbroken) : IsUnbroken (e.toHuman quote).toList := by
  have hjoined : IsUnbroken (" ".intercalate (e.fieldTexts quote)).toList :=
    IsUnbroken.intercalate (by simp) fun t ht => isUnbroken_of_mem_fieldTexts hquote hnames ht
  have hdecimal (n : Nat) : IsUnbroken (decimal n).toList := (isOneLine_decimal n).isUnbroken
  unfold toHuman
  simp only [String.toList_append, isUnbroken_append]
  -- behind the level: the component and the message, the time, and the fields
  refine ⟨⟨⟨⟨⟨by simp, e.level.isUnbroken_label⟩, by simp⟩, ?_⟩, ?_⟩, ?_⟩
  · split
    · rename_i name hname
      simp [hcomponent name hname, hmessage]
    · exact hmessage
  · split
    · simp [hdecimal]
    · simp
  · split
    · simp
    · rw [String.toList_append]
      exact isUnbroken_append.mpr ⟨by simp, hjoined⟩

end Entry

/-! ## Loggers

A line of a logger is an entry in one of the two forms. -/

/-- The text has neither a line feed nor a carriage return among its bytes. -/
def Line.IsUnbroken (line : Line) : Prop :=
  ∀ b ∈ Utf8.encode line.text, b ≠ 0x0A ∧ b ≠ 0x0D

namespace Logger

variable {l : Logger} {level : Level} {message : String} {fields : Fields} {elapsed : Nat}
variable {line : Line}

/-- The logger, with another least level. -/
def admitting (l : Logger) (least : Level) : Logger :=
  { l with minLevel := least }

/-- A line is of the level that it was logged at. -/
theorem level_of_line? (h : l.line? level message fields elapsed quote = some line) :
    line.level = level := by
  unfold line? at h
  split at h
  · exact (Option.some.inj h) ▸ rfl
  · cases h

/-- A written line is unbroken if the names in it, the message and the strings are. -/
theorem isUnbroken_of_line? (hquote : ∀ text, IsUnbroken (quote text))
    (h : l.line? level message fields elapsed quote = some line)
    (hcomponent : ∀ name, l.component = some name → IsUnbroken name.toList)
    (hmessage : IsUnbroken message.toList) (hnames : fields.NamesUnbroken) :
    IsUnbroken line.text.toList := by
  unfold line? at h
  split at h
  · obtain rfl := Option.some.inj h
    dsimp only
    split
    · exact Entry.isUnbroken_toJson hquote _
    · exact Entry.isUnbroken_toHuman hquote hmessage hcomponent hnames
  · cases h

/-- A logger that admits all levels writes a line of every entry. -/
theorem exists_line?_trace (l : Logger) (level : Level) (message : String) (fields : Fields)
    (elapsed : Nat) (quote : String → List Char) :
    ∃ line, (l.admitting .trace).line? level message fields elapsed quote = some line := by
  have henabled : (l.admitting .trace).enabled level = true := decide_eq_true (Nat.zero_le _)
  exact ⟨_, if_pos henabled⟩

/-- The lines of a logger are those it would write if it admitted all levels, from its least level
on. -/
theorem toList_line? (l : Logger) (least level : Level) (message : String) (fields : Fields)
    (elapsed : Nat) (quote : String → List Char) :
    ((l.admitting least).line? level message fields elapsed quote).toList =
      ((l.admitting .trace).line? level message fields elapsed quote).toList.filter
        fun line => least.rank ≤ line.level.rank := by
  obtain ⟨line, hline⟩ := exists_line?_trace l level message fields elapsed quote
  have hlevel := level_of_line? hline
  rw [hline, Option.toList_some, List.filter_singleton, hlevel]
  by_cases hle : least.rank ≤ level.rank
  · -- the text of the line does not depend on the least level
    have henabled : (l.admitting least).enabled level = true := decide_eq_true hle
    have hsame : (l.admitting least).line? level message fields elapsed quote =
        (l.admitting .trace).line? level message fields elapsed quote :=
      (if_pos henabled).trans (if_pos (decide_eq_true (Nat.zero_le _))).symm
    rw [hsame, hline, decide_eq_true hle]
    rfl
  · have hdisabled : ¬(l.admitting least).enabled level = true := by
      rw [enabled, decide_eq_true_eq]
      exact hle
    rw [line?, if_neg hdisabled, decide_eq_false hle]
    rfl

end Logger

end Log

end EdgeInclude
