import EdgeInclude.Duration.Basic
import EdgeInclude.Json.Basic
import EdgeInclude.Log.Level

/-!
# Log entries

What one diagnostic line says, and its two written forms. The line for people sorts its fields, so
it does not depend on the order in which they were given; the structured line puts the fields
between the fixed members and the elapsed time. Both leave it to `quote` how a JSON string is written.
-/

namespace EdgeInclude.Log

/-- Fields by name; a later value of a name replaces an earlier one. -/
structure Fields where
  entries : List (String × Json) := []

namespace Fields

/-- The value of a name. -/
def get? (f : Fields) (name : String) : Option Json :=
  (f.entries.find? fun entry => entry.1 = name).map (·.2)

/-- Sets the value of a name. -/
def set (f : Fields) (name : String) (value : Json) : Fields :=
  ⟨f.entries.filter (fun entry => entry.1 ≠ name) ++ [(name, value)]⟩

theorem get?_set (f : Fields) (name other : String) (value : Json) :
    (f.set name value).get? other = if name = other then some value else f.get? other := by
  unfold get? set
  rw [List.find?_append, List.find?_filter]
  by_cases h : name = other
  · -- the entries that are kept have other names
    have hnone : f.entries.find? (fun entry => decide (decide (entry.1 ≠ name) = true ∧
        decide (entry.1 = other) = true)) = none := by
      rw [List.find?_eq_none]
      intro entry _
      simp [← h]
    rw [hnone, if_pos h]
    simp [h]
  · have hsame : (fun entry : String × Json => decide (decide (entry.1 ≠ name) = true ∧
        decide (entry.1 = other) = true)) = fun entry => decide (entry.1 = other) := by
      funext entry
      by_cases he : entry.1 = other
      · simp [he, Ne.symm h]
      · simp [he]
    rw [hsame, if_neg h]
    simp [h]

/-- Sets a field to a text. -/
def text (f : Fields) (name value : String) : Fields :=
  f.set name (.string value)

/-- Sets a field to a number. -/
def count (f : Fields) (name : String) (value : Nat) : Fields :=
  f.set name (.number value)

/-- Sets a field to a truth value. -/
def flag (f : Fields) (name : String) (value : Bool) : Fields :=
  f.set name (.bool value)

/-- Sets a field to the whole milliseconds of a duration, cut to 64 bits. -/
def millis (f : Fields) (name : String) (value : Duration) : Fields :=
  f.set name (.number (value.wholeMillis % UInt64.size : Nat))

end Fields

/-- What one line says. -/
structure Entry where
  level : Level
  message : String
  requestId : Option String := none
  component : Option String := none
  fields : Fields := {}
  /-- Microseconds since the logger was made. -/
  elapsed : Option Nat := none

namespace Entry

/-- The members of the structured line. -/
def members (e : Entry) : List (String × Json) :=
  [("level", .string e.level.name), ("message", .string e.message)] ++
    (e.requestId.map fun id => ("request_id", Json.string id)).toList ++
    (e.component.map fun name => ("component", Json.string name)).toList ++
    e.fields.entries ++
    (e.elapsed.map fun micros => ("elapsed_us", Json.number micros)).toList

/-- The structured line. -/
def toJson (e : Entry) (quote : String → List Char := Json.quoteChars) : String :=
  Json.printMembers e.members quote

/-- One field in a line for people. -/
def fieldText (field : String × Json) (quote : String → List Char := Json.quoteChars) : String :=
  field.1 ++ "=" ++ field.2.print quote

/-- The fields of a line for people, in the order of their texts. -/
def fieldTexts (e : Entry) (quote : String → List Char := Json.quoteChars) : List String :=
  (e.fields.entries.map fun field => fieldText field quote).mergeSort fun s t => decide (s ≤ t)

/-- The line for people. -/
def toHuman (e : Entry) (quote : String → List Char := Json.quoteChars) : String :=
  "[" ++ e.level.label ++ "] " ++
    (match e.component with
      | some component => component ++ ": " ++ e.message
      | none => e.message) ++
    (match e.elapsed with
      | some micros => " (" ++ Text.decimal micros ++ "us)"
      | none => "") ++
    (match e.fieldTexts quote with
      | [] => ""
      | texts => " | " ++ String.intercalate " " texts)

end Entry

end EdgeInclude.Log
