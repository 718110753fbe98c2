import EdgeInclude.Config.Json
import EdgeInclude.Config.Toml
import EdgeInclude.Text.Utf8

/-!
# Configuration files

A file whose name ends in `.json` is read as JSON, any other as TOML.
-/

namespace EdgeInclude.Config

/-- Why a file gives no configuration. -/
inductive LoadError where
  /-- The file is not there, or is no text. -/
  | unreadable
  /-- The JSON text gives no configuration. -/
  | json (cause : ReadError)
  /-- The TOML text gives no configuration. -/
  | toml (cause : ReadError)
deriving DecidableEq

/-- What was being done when the error came up. -/
def LoadError.context : LoadError → String
  | unreadable => "Failed to read config file"
  | json _ => "Failed to parse JSON config"
  | toml _ => "Failed to parse TOML config"

/-- What the error itself says, if it can be said. -/
def LoadError.message? : LoadError → Option String
  | unreadable => none
  | json cause | toml cause => cause.message?

/-- The end of the names of JSON files. -/
def jsonSuffix : String := ".json"

/-- Reads a configuration from the content of a file with the given name, with a reader for each format;
there is no content if there is no file. -/
def loadBy (ofJson ofToml : String → Except ReadError Config) (name : String)
    (content : Option Bytes) : Except LoadError Config :=
  match content.bind Utf8.decode? with
  | none => .error .unreadable
  | some text =>
    if jsonSuffix.toList.isSuffixOf name.toList then
      match ofJson text with
      | .ok c => .ok c
      | .error e => .error (.json e)
    else
      match ofToml text with
      | .ok c => .ok c
      | .error e => .error (.toml e)

/-- Reads a configuration from the content of a file with the given name. -/
def load (name : String) (content : Option Bytes) : Except LoadError Config :=
  loadBy ofJson ofToml name content

end EdgeInclude.Config
