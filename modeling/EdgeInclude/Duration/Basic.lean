import EdgeInclude.Text.Decimal

/-!
# Durations

A duration is a whole number of nanoseconds. Its seconds fit an unsigned 64-bit word, and the type
keeps that bound: every function that makes a duration shows that it stays below it.

A duration has two written forms. `Duration.describe` is the one of diagnostics, with a decimal
fraction; the one of tags and configuration files is in `EdgeInclude.Duration.Printer`.
-/

namespace EdgeInclude

/-- The nanoseconds of one second. -/
abbrev nanosPerSecond : Nat := 1000000000

/-- The nanoseconds of one millisecond. -/
abbrev nanosPerMilli : Nat := 1000000

/-- The longest duration, in nanoseconds: `2 ^ 64 - 1` seconds and `999999999` nanoseconds. -/
def maxDurationNanos : Nat := (UInt64.size - 1) * nanosPerSecond + 999999999

/-- A length of time in nanoseconds. -/
structure Duration where
  nanos : Nat
  le_max : nanos ≤ maxDurationNanos
deriving DecidableEq

namespace Duration

/-- The duration of the given nanoseconds, if there is one. -/
def ofNanos? (n : Nat) : Option Duration :=
  if h : n ≤ maxDurationNanos then some ⟨n, h⟩ else none

theorem nanos_of_ofNanos?_eq_some {n : Nat} {d : Duration} (h : ofNanos? n = some d) :
    d.nanos = n := by
  unfold ofNanos? at h
  split at h
  · cases h; rfl
  · cases h

/-- No time. -/
def zero : Duration := ⟨0, Nat.zero_le _⟩

instance : Inhabited Duration := ⟨zero⟩

/-- A whole number of seconds that fits a 64-bit word. -/
def ofSeconds (seconds : UInt64) : Duration :=
  ⟨seconds.toNat * nanosPerSecond, by
    have := seconds.toNat_lt
    simp only [maxDurationNanos, UInt64.size, nanosPerSecond]
    omega⟩

/-- A whole number of milliseconds that fits a 64-bit word. -/
def ofMillis (millis : UInt64) : Duration :=
  ⟨millis.toNat * nanosPerMilli, by
    have := millis.toNat_lt
    simp only [maxDurationNanos, UInt64.size, nanosPerSecond, nanosPerMilli]
    omega⟩

/-- The shorter of two durations. -/
def min (d e : Duration) : Duration :=
  if d.nanos ≤ e.nanos then d else e

/-- The whole milliseconds of a duration. -/
def wholeMillis (d : Duration) : Nat :=
  d.nanos / nanosPerMilli

/-- The decimal fraction `rest / 10 ^ places`: a point and its digits without trailing zeros, or
nothing when it is zero. -/
def fraction (rest places : Nat) : List Char :=
  match ((Text.paddedDigits places rest).reverse.dropWhile (· = '0')).reverse with
  | [] => []
  | ds => '.' :: ds

/-- The exact decimal value in the largest of s, ms, µs and ns in which it is at least one. -/
def describe (d : Duration) : String :=
  let shown (places : Nat) (symbol : String) : String :=
    Text.decimal (d.nanos / Nat.pow 10 places) ++
      String.ofList (fraction (d.nanos % Nat.pow 10 places) places) ++ symbol
  if nanosPerSecond ≤ d.nanos then shown 9 "s"
  else if nanosPerMilli ≤ d.nanos then shown 6 "ms"
  else if 1000 ≤ d.nanos then shown 3 "\u00B5s"
  else shown 0 "ns"

end Duration

end EdgeInclude
