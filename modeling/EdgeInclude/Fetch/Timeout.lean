import EdgeInclude.Duration.Basic

/-!
# Timeouts

How long the fetch for one tag may take: as long as the tag says, or a default if it does not say,
and never longer than a ceiling.
-/

namespace EdgeInclude

/-- The rule for the time that a fetch may take. -/
structure TimeoutPolicy where
  /-- For tags that name no time. -/
  default : Duration := Duration.ofSeconds 20
  /-- The ceiling for every tag. -/
  max : Option Duration := none
deriving DecidableEq

namespace TimeoutPolicy

/-- The time that a fetch may take when its tag asks for the given one; zero asks for nothing. -/
def resolve (p : TimeoutPolicy) (requested : Duration) : Duration :=
  let wanted := if requested = Duration.zero then p.default else requested
  match p.max with
  | some max => wanted.min max
  | none => wanted

/-- A duration that may be missing, in a description. -/
def describeOption : Option Duration → String
  | some d => "Some(" ++ d.describe ++ ")"
  | none => "None"

/-- The description of a rule. -/
def describe (p : TimeoutPolicy) : String :=
  "TimeoutPolicy \x7b default: " ++ p.default.describe ++ ", max: " ++ describeOption p.max ++
    " \x7d"

end TimeoutPolicy

end EdgeInclude
