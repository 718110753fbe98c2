import EdgeInclude.Log.Entry
import EdgeInclude.Text.Quoted
import EdgeInclude.Text.Search

/-!
# Loggers and sinks

A logger decides which entries are written and in which form; a sink takes the written lines.
-/

namespace EdgeInclude.Log

/-- One written line. -/
structure Line where
  level : Level
  text : String
deriving DecidableEq, Repr

/-- What diagnostics say about themselves, and which of them are written. -/
structure Logger where
  requestId : Option String := none
  component : Option String := none
  minLevel : Level := .info
  format : Format := .json
deriving DecidableEq, Repr

namespace Logger

/-- Entries of the level are written. -/
def enabled (l : Logger) (level : Level) : Bool :=
  l.minLevel.rank ≤ level.rank

/-- An entry as the logger writes it, `elapsed` microseconds after it was made. -/
def entry (l : Logger) (level : Level) (message : String) (fields : Fields) (elapsed : Nat) :
    Entry :=
  { level, message, requestId := l.requestId, component := l.component, fields,
    elapsed := some (elapsed % UInt64.size) }

/-- The line of an entry, if entries of its level are written. -/
def line? (l : Logger) (level : Level) (message : String) (fields : Fields) (elapsed : Nat)
    (quote : String → List Char := Json.quoteChars) : Option Line :=
  if l.enabled level then
    let e := l.entry level message fields elapsed
    some ⟨level, match l.format with
      | .json => e.toJson quote
      | .human => e.toHuman quote⟩
  else none

/-- A text that may be missing, in a description. -/
def describeOption : Option String → String
  | some text => "Some(" ++ text ++ ")"
  | none => "None"

/-- The description of a logger. -/
def describe (l : Logger) : String :=
  "StructuredLogger \x7b request_id: " ++
    describeOption (l.requestId.map fun id => "RequestId(" ++ Text.quote id ++ ")") ++
    ", component: " ++ describeOption (l.component.map Text.quote) ++
    ", min_level: " ++ l.minLevel.title ++ ", format: " ++ l.format.title ++ ", .. \x7d"

end Logger

/-- Where lines go. -/
inductive Sink where
  /-- Kept in memory. -/
  | memory
  /-- Passed on as events. -/
  | events
  /-- Written to the error stream. -/
  | errorStream
deriving DecidableEq, Repr

/-- An event that carries a line. -/
structure Event where
  target : String
  line : Line
deriving DecidableEq, Repr

/-- The target of the events that carry lines. -/
def eventTarget : String := "esi"

/-- What the sinks have taken, oldest first. -/
structure Output where
  kept : List Line := []
  events : List Event := []
  errors : List String := []
deriving DecidableEq, Repr

namespace Output

/-- Hands a line to a sink. -/
def write (o : Output) (line : Line) : Sink → Output
  | .memory => { o with kept := o.kept ++ [line] }
  | .events => { o with events := o.events ++ [⟨eventTarget, line⟩] }
  | .errorStream => { o with errors := o.errors ++ [line.text] }

/-- The lines of a level that are kept. -/
def keptAt (o : Output) (level : Level) : List String :=
  (o.kept.filter fun line => line.level = level).map (·.text)

/-- A kept line holds the given text. -/
def contains (o : Output) (needle : String) : Bool :=
  o.kept.any fun line => Text.occursIn needle.toList line.text.toList

end Output

end EdgeInclude.Log
