import EdgeInclude.Config.Basic
import EdgeInclude.Duration.Parser

/-!
# Settings

A configuration text gives settings, each by its key. A setting that is not given keeps its default
value; a key that is unknown is passed over. What a setting says is a text, whatever the format of
the configuration: a duration, or one of several names.
-/

namespace EdgeInclude.Config

/-- The keys of a configuration. -/
inductive Key where
  | defaultTimeout | maxTimeout | batchDeadline | logFormat | logLevel
deriving DecidableEq, Repr

namespace Key

/-- All keys, in the order in which they are written. -/
def all : List Key := [defaultTimeout, maxTimeout, batchDeadline, logFormat, logLevel]

/-- The name of a key. -/
def name : Key → String
  | defaultTimeout => "default_timeout"
  | maxTimeout => "max_timeout"
  | batchDeadline => "batch_deadline"
  | logFormat => "log_format"
  | logLevel => "log_level"

/-- The key of a name. -/
def ofName? (name : String) : Option Key :=
  all.find? fun key => key.name = name

/-- The setting is one of several names. -/
def isChoice : Key → Bool
  | logFormat | logLevel => true
  | _ => false

/-- The setting can be left out on purpose. -/
def isOptional : Key → Bool
  | maxTimeout | batchDeadline => true
  | _ => false

end Key

/-- Why a text is no configuration. -/
inductive ReadError where
  /-- The text is not well formed, or has a value where none of its kind can stand. -/
  | malformed
  /-- A duration cannot be read. -/
  | duration (cause : Duration.ReadError)
  /-- A name is none of those that can stand in its place. -/
  | unknownName (found : String) (known : List String)
  /-- A value is not of the kind that is wanted. -/
  | wrongKind (found wanted : String)
  /-- A setting is given twice. -/
  | duplicate (key : Key)
deriving DecidableEq

/-- Names between backquotes, as a message lists them. -/
def listNames (names : List String) : String :=
  let quoted := names.map fun name => "\x60" ++ name ++ "\x60"
  match quoted with
  | [first, second] => first ++ " or " ++ second
  | _ => "one of " ++ String.intercalate ", " quoted

/-- What the error says, for all errors but those of the form. -/
def ReadError.message? : ReadError → Option String
  | malformed => none
  | duration cause => some cause.message
  | unknownName found known =>
    some ("unknown variant \x60" ++ found ++ "\x60, expected " ++ listNames known)
  | wrongKind found wanted => some ("invalid type: " ++ found ++ ", expected " ++ wanted)
  | duplicate key => some ("duplicate field \x60" ++ key.name ++ "\x60")

/-- What a message calls the value of a setting that is a text. -/
def textKind : String := "a string"

/-- The settings that are given so far. -/
structure Draft where
  defaultTimeout : Option Duration := none
  maxTimeout : Option (Option Duration) := none
  batchDeadline : Option (Option Duration) := none
  logFormat : Option Log.Format := none
  logLevel : Option Log.Level := none
deriving DecidableEq

namespace Draft

/-- The setting is given. -/
def has (d : Draft) : Key → Bool
  | .defaultTimeout => d.defaultTimeout.isSome
  | .maxTimeout => d.maxTimeout.isSome
  | .batchDeadline => d.batchDeadline.isSome
  | .logFormat => d.logFormat.isSome
  | .logLevel => d.logLevel.isSome

/-- Reads a duration. -/
def readDuration (text : String) : Except ReadError Duration :=
  match Duration.parse text with
  | .ok d => .ok d
  | .error cause => .error (.duration cause)

/-- Gives a setting its text. -/
def set (d : Draft) (key : Key) (text : String) : Except ReadError Draft :=
  match key with
  | .defaultTimeout => (readDuration text).map fun value => { d with defaultTimeout := some value }
  | .maxTimeout => (readDuration text).map fun value => { d with maxTimeout := some (some value) }
  | .batchDeadline =>
    (readDuration text).map fun value => { d with batchDeadline := some (some value) }
  | .logFormat =>
    match Log.Format.ofName? text with
    | some value => .ok { d with logFormat := some value }
    | none => .error (.unknownName text (Log.Format.all.map Log.Format.name))
  | .logLevel =>
    match Log.Level.ofName? text with
    | some value => .ok { d with logLevel := some value }
    | none => .error (.unknownName text (Log.Level.all.map Log.Level.name))

/-- Leaves out a setting on purpose. -/
def leaveOut (d : Draft) : Key → Draft
  | .maxTimeout => { d with maxTimeout := some none }
  | .batchDeadline => { d with batchDeadline := some none }
  | _ => d

/-- The configuration with the settings that are given. -/
def finish (d : Draft) : Config :=
  let defaults : Config := {}
  { defaultTimeout := d.defaultTimeout.getD defaults.defaultTimeout
    maxTimeout := d.maxTimeout.getD defaults.maxTimeout
    batchDeadline := d.batchDeadline.getD defaults.batchDeadline
    logFormat := d.logFormat.getD defaults.logFormat
    logLevel := d.logLevel.getD defaults.logLevel }

end Draft

end EdgeInclude.Config
