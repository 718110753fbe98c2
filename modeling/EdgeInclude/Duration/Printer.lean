import EdgeInclude.Duration.Parser

/-!
# Writing a duration

A duration is written as one whole number of the largest unit that divides it, such as `2s` or
`1500us`. The text reads back as the same duration.
-/

namespace EdgeInclude.Duration

/-- How a unit is written. -/
def Scale.symbol : Scale → String
  | hours => "h"
  | minutes => "m"
  | seconds => "s"
  | millis => "ms"
  | micros => "us"
  | nanos => "ns"

/-- The largest unit of which the given nanoseconds are a whole number. -/
def Scale.largest (n : Nat) : Scale :=
  if n % hours.size = 0 then hours
  else if n % minutes.size = 0 then minutes
  else if n % seconds.size = 0 then seconds
  else if n % millis.size = 0 then millis
  else if n % micros.size = 0 then micros
  else nanos

/-- The largest unit divides. -/
theorem Scale.mod_size_largest (n : Nat) : n % (largest n).size = 0 := by
  unfold largest
  repeat' split
  all_goals first | assumption | exact Nat.mod_one n

/-- Writes a duration. Zero is written in seconds. -/
def print (d : Duration) : String :=
  if d.nanos = 0 then "0s"
  else
    let scale := Scale.largest d.nanos
    Text.decimal (d.nanos / scale.size) ++ scale.symbol

end EdgeInclude.Duration
