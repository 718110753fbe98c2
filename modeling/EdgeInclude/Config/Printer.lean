import EdgeInclude.Config.Draft
import EdgeInclude.Duration.Printer
import EdgeInclude.Json.Basic

/-!
# Writing configurations

A configuration is written as its settings in the order of their keys, without those that are left
out.
-/

namespace EdgeInclude.Config

/-- The text of a setting, unless it is left out. -/
def text? (c : Config) : Key → Option String
  | .defaultTimeout => some c.defaultTimeout.print
  | .maxTimeout => c.maxTimeout.map Duration.print
  | .batchDeadline => c.batchDeadline.map Duration.print
  | .logFormat => some c.logFormat.name
  | .logLevel => some c.logLevel.name

/-- The settings with their texts. -/
def settings (c : Config) : List (Key × String) :=
  Key.all.filterMap fun key => (c.text? key).map fun text => (key, text)

/-- Writes a setting as a line of TOML. Its text has no character that would have to be escaped. -/
def tomlLine (setting : Key × String) : String :=
  setting.1.name ++ " = \"" ++ setting.2 ++ "\"\n"

/-- Writes a configuration as TOML. -/
def toToml (c : Config) : String :=
  String.join (c.settings.map tomlLine)

/-- Writes a configuration as JSON. -/
def toJson (c : Config) : String :=
  Json.printMembers (c.settings.map fun setting => (setting.1.name, .string setting.2))

end EdgeInclude.Config
