import EdgeInclude.Fetch.Timeout
import EdgeInclude.Log.Logger

/-!
# Configurations

How fetches are bounded, and how diagnostics are written.
-/

namespace EdgeInclude

/-- A configuration. -/
structure Config where
  /-- How long a fetch may take whose tag does not say. -/
  defaultTimeout : Duration := Duration.ofSeconds 20
  /-- The ceiling for the time of every fetch. -/
  maxTimeout : Option Duration := none
  /-- How long the fragments of a page may take together. -/
  batchDeadline : Option Duration := none
  /-- How diagnostic lines are written. -/
  logFormat : Log.Format := .json
  /-- The least important level that is written. -/
  logLevel : Log.Level := .info
deriving DecidableEq

namespace Config

/-- The rule for the time that a fetch may take. -/
def timeouts (c : Config) : TimeoutPolicy :=
  { default := c.defaultTimeout, max := c.maxTimeout }

/-- A logger with the given component. -/
def logger (c : Config) (component : Option String := none) : Log.Logger :=
  { component, minLevel := c.logLevel, format := c.logFormat }

end Config

end EdgeInclude
