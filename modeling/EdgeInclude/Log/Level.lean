/-!
# Levels

How important a diagnostic line is, and how lines are written.
-/

namespace EdgeInclude.Log

/-- The level of a line, from the least to the most important. -/
inductive Level where
  | trace | debug | info | warn | error
deriving DecidableEq, Repr

namespace Level

/-- The rank of a level: a more important one has a higher rank. -/
def rank : Level → Nat
  | trace => 0
  | debug => 1
  | info => 2
  | warn => 3
  | error => 4

/-- All levels, the least important first. -/
def all : List Level := [trace, debug, info, warn, error]

/-- The name in structured lines and in configurations. -/
def name : Level → String
  | trace => "trace"
  | debug => "debug"
  | info => "info"
  | warn => "warn"
  | error => "error"

/-- The label in lines for people. -/
def label : Level → String
  | trace => "TRACE"
  | debug => "DEBUG"
  | info => "INFO"
  | warn => "WARN"
  | error => "ERROR"

/-- The name in the description of a logger. -/
def title : Level → String
  | trace => "Trace"
  | debug => "Debug"
  | info => "Info"
  | warn => "Warn"
  | error => "Error"

/-- The level of a name. -/
def ofName? (name : String) : Option Level :=
  all.find? fun level => level.name = name

@[simp]
theorem ofName?_name (level : Level) : ofName? level.name = some level := by
  cases level <;> decide

end Level

/-- How lines are written. -/
inductive Format where
  /-- One JSON object a line. -/
  | json
  /-- For people to read. -/
  | human
deriving DecidableEq, Repr

namespace Format

/-- Both formats. -/
def all : List Format := [json, human]

/-- The name in configurations. -/
def name : Format → String
  | json => "json"
  | human => "human"

/-- The name in the description of a logger. -/
def title : Format → String
  | json => "Json"
  | human => "Human"

/-- The format of a name. -/
def ofName? (name : String) : Option Format :=
  all.find? fun format => format.name = name

@[simp]
theorem ofName?_name (format : Format) : ofName? format.name = some format := by
  cases format <;> decide

end Format

end EdgeInclude.Log
