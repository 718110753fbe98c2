import EdgeInclude.Text.Utf8

/-!
# Header fields

The header fields of a message. A name is kept in lower case and may have several values, which
keep the order in which they were added.
-/

namespace EdgeInclude

/-- Header fields in the order in which they were added. -/
structure Headers where
  entries : List (String × Bytes) := []
deriving DecidableEq, Repr

namespace Headers

/-- A character that can stand in a field name. -/
def isNameChar (c : Char) : Bool :=
  c.isAlphanum || "!#$%&'*+-.^_\x60|~".toList.contains c

/-- A text in lower case; only ASCII letters have a case here. -/
def lowerCase (text : String) : String :=
  String.ofList (text.toList.map Char.toLower)

/-- The longest field name. -/
def maxNameLength : Nat := 65535

/-- The name under which a field is kept, if the text is a field name. -/
def name? (text : String) : Option String :=
  if text.toList ≠ [] ∧ text.toList.length ≤ maxNameLength ∧ text.toList.all isNameChar then
    some (lowerCase text)
  else none

/-- A byte that is shown: a tab, or a visible ASCII character or space. -/
def isShown (b : UInt8) : Bool :=
  b = 9 || (32 ≤ b && b < 127)

/-- A byte that can stand in a field value. -/
def isValueByte (b : UInt8) : Bool :=
  b = 9 || (32 ≤ b && b ≠ 127)

/-- Adds a value. A text that is no field name, or bytes that are no field value, are ignored. -/
def append (h : Headers) (name : String) (value : Bytes) : Headers :=
  match name? name with
  | some name => if value.all isValueByte then ⟨h.entries ++ [(name, value)]⟩ else h
  | none => h

/-- Adds a value that is given as a text. -/
def add (h : Headers) (name value : String) : Headers :=
  h.append name (Utf8.encode value)

/-- All values of a field, whatever the case of the name. -/
def values (h : Headers) (name : String) : List Bytes :=
  (h.entries.filter fun entry => entry.1 = lowerCase name).map (·.2)

/-- The first value of a field as a text, if all of it is shown. -/
def get? (h : Headers) (name : String) : Option String :=
  match h.values name with
  | value :: _ => if value.all isShown then some (Utf8.lossy value) else none
  | [] => none

/-- The fields whose names are selected. -/
def select (h : Headers) (p : String → Bool) : Headers :=
  ⟨h.entries.filter fun entry => p entry.1⟩

/-- The names of the fields, each once. -/
def names (h : Headers) : List String :=
  (h.entries.map (·.1)).eraseDups

end Headers

end EdgeInclude
