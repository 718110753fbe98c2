import EdgeInclude.Duration.Basic
import EdgeInclude.Text.Quoted

/-!
# Reading a duration

A duration is written as one or more pairs of a decimal number and a unit, such as `1h30m`, or as
a bare `0`. A sign may come first, but a negative duration is refused.

The text is read pair by pair from the left, and the first pair at fault names the error. The
nanoseconds are added up in unsigned words of 128 bits. A number before a point, and the sum of the
pairs, are refused where they do not fit a word. What stands behind a point is added unguarded: there a
sum that does not fit wraps around, and in a build that checks its sums the reading breaks down.
`parse` is the reading of a build that does not check, `parseChecked` that of one that does.
-/

namespace EdgeInclude.Duration

/-- A unit of time. -/
inductive Scale where
  | hours | minutes | seconds | millis | micros | nanos
deriving DecidableEq, Repr

namespace Scale

/-- The nanoseconds of one unit. -/
def size : Scale → Nat
  | hours => 3600000000000
  | minutes => 60000000000
  | seconds => 1000000000
  | millis => 1000000
  | micros => 1000
  | nanos => 1

/-- The unit that a text names. Microseconds are written with a `u`, with the micro sign or with
the Greek letter. -/
def ofChars? : List Char → Option Scale
  | ['n', 's'] => some nanos
  | ['u', 's'] => some micros
  | ['\u00B5', 's'] => some micros
  | ['\u03BC', 's'] => some micros
  | ['m', 's'] => some millis
  | ['s'] => some seconds
  | ['m'] => some minutes
  | ['h'] => some hours
  | _ => none

theorem size_pos (s : Scale) : 0 < s.size := by
  cases s <;> decide

end Scale

/-- Why a text is no duration. Each cause carries the whole text. -/
inductive ReadError where
  /-- A number is missing, or the text is empty. -/
  | invalid (input : String)
  /-- A number stands without a unit. -/
  | missingUnit (input : String)
  /-- A number stands before a text that names no unit. -/
  | unknownUnit (unit input : String)
  /-- The sign is negative and the duration is not zero. -/
  | negative (input : String)
  /-- The duration is longer than the longest one. -/
  | outOfRange (input : String)
deriving DecidableEq, Repr

/-- What the error says. -/
def ReadError.message : ReadError → String
  | invalid input => "invalid duration " ++ Text.quote input
  | missingUnit input => "missing unit in duration " ++ Text.quote input
  | unknownUnit unit input =>
    "unknown unit " ++ Text.quote unit ++ " in duration " ++ Text.quote input
  | negative input => "negative duration " ++ Text.quote input
  | outOfRange input => "duration " ++ Text.quote input ++ " is out of range"

/-- What is wrong with one pair, or with the sum of the pairs. -/
inductive Fault where
  | noNumber
  | noUnit
  | unknownUnit (unit : List Char)
  | tooLarge
deriving DecidableEq, Repr

/-- The error that a fault in the given text is. -/
def Fault.toError (input : String) : Fault → ReadError
  | noNumber => .invalid input
  | noUnit => .missingUnit input
  | unknownUnit unit => .unknownUnit (String.ofList unit) input
  | tooLarge => .outOfRange input

/-- The first pair of a text as it is written: the digits before the point, the digits behind it,
and everything up to the next digit or point. -/
structure Pair where
  whole : List Char
  fraction : List Char
  unit : List Char
  rest : List Char
deriving DecidableEq, Repr

namespace Pair

/-- A character that can stand in a unit: neither a digit nor a point. -/
def isUnitChar (c : Char) : Bool :=
  !(c = '.' || Text.isDigit c)

/-- What follows the digits before the point: the digits behind it, if there is a point, and the
rest. -/
def splitFraction : List Char → List Char × List Char
  | '.' :: cs => (cs.takeWhile Text.isDigit, cs.dropWhile Text.isDigit)
  | cs => ([], cs)

/-- Takes the first pair off a text. -/
def split (cs : List Char) : Pair :=
  let (fraction, afterNumber) := splitFraction (cs.dropWhile Text.isDigit)
  { whole := cs.takeWhile Text.isDigit
    fraction
    unit := afterNumber.takeWhile isUnitChar
    rest := afterNumber.dropWhile isUnitChar }

theorem length_splitFraction_le (cs : List Char) : (splitFraction cs).2.length ≤ cs.length := by
  unfold splitFraction
  split
  · have := (List.dropWhile_sublist (l := ‹List Char›) Text.isDigit).length_le
    simp only [List.length_cons]
    omega
  · exact Nat.le_refl _

/-- Every pair takes something: a digit, a point, or a character of the unit. -/
theorem length_rest_split_lt (c : Char) (cs : List Char) :
    (split (c :: cs)).rest.length < (c :: cs).length := by
  have hw (l : List Char) : (l.dropWhile isUnitChar).length ≤ l.length :=
    (List.dropWhile_sublist isUnitChar).length_le
  by_cases hd : Text.isDigit c = true
  · have h1 := hw (splitFraction ((c :: cs).dropWhile Text.isDigit)).2
    have h2 := length_splitFraction_le ((c :: cs).dropWhile Text.isDigit)
    have h3 := (List.dropWhile_sublist (l := cs) Text.isDigit).length_le
    simp only [List.dropWhile_cons, hd, if_true] at h1 h2
    simp only [split, List.dropWhile_cons, hd, if_true, List.length_cons]
    omega
  · by_cases hp : c = '.'
    · subst hp
      have h1 := hw (cs.dropWhile Text.isDigit)
      have h2 := (List.dropWhile_sublist (l := cs) Text.isDigit).length_le
      simp only [split, List.dropWhile_cons, hd, Bool.false_eq_true, if_false, splitFraction,
        List.length_cons]
      omega
    · have hu : isUnitChar c = true := by simp [isUnitChar, hd, hp]
      have hs : splitFraction (c :: cs) = ([], c :: cs) := by
        unfold splitFraction
        split
        · simp_all
        · rfl
      have h1 := hw cs
      simp only [split, List.dropWhile_cons, hd, Bool.false_eq_true, if_false, hs, hu, if_true,
        List.length_cons]
      omega

/-- One more than the greatest number that is counted with: the words have 128 bits. -/
def wordLimit : Nat := UInt64.size * UInt64.size

/-- Adds what the digits behind the point count for, when the digit before them counts for `place`
nanoseconds. A digit that counts for less than one nanosecond is dropped, and so are all behind it. A
sum that does not fit the word wraps around. -/
def addFraction : (nanos place : Nat) → List Char → Nat
  | nanos, _, [] => nanos
  | nanos, place, d :: ds =>
    if place / 10 = 0 then nanos
    else addFraction ((nanos + Text.digitValue d * (place / 10)) % wordLimit) (place / 10) ds

/-- Adds the same in a build that checks its sums, and breaks down where one does not fit the word. -/
def addFractionChecked : (nanos place : Nat) → List Char → Option Nat
  | nanos, _, [] => some nanos
  | nanos, place, d :: ds =>
    if place / 10 = 0 then some nanos
    else if wordLimit ≤ nanos + Text.digitValue d * (place / 10) then none
    else addFractionChecked (nanos + Text.digitValue d * (place / 10)) (place / 10) ds

/-- The unit of a pair and the nanoseconds before its point. -/
def scaled (p : Pair) : Except Fault (Scale × Nat) :=
  if p.whole = [] ∧ p.fraction = [] then .error .noNumber
  else if p.unit = [] then .error .noUnit
  else
    match Scale.ofChars? p.unit with
    | none => .error (.unknownUnit p.unit)
    | some scale =>
      let whole := Text.digitsValue p.whole
      if wordLimit ≤ whole ∨ wordLimit ≤ whole * scale.size then .error .tooLarge
      else .ok (scale, whole * scale.size)

/-- The nanoseconds of a pair. -/
def value (p : Pair) : Except Fault Nat :=
  match p.scaled with
  | .error fault => .error fault
  | .ok (scale, nanos) => .ok (addFraction nanos scale.size p.fraction)

/-- The nanoseconds of a pair in a build that checks its sums, unless that breaks down. -/
def valueChecked (p : Pair) : Option (Except Fault Nat) :=
  match p.scaled with
  | .error fault => some (.error fault)
  | .ok (scale, nanos) => (addFractionChecked nanos scale.size p.fraction).map .ok

end Pair

/-- The sum of `total` and of the pairs of a text. -/
def sumPairs (total : Nat) (cs : List Char) : Except Fault Nat :=
  match cs with
  | [] => .ok total
  | c :: cs =>
    match (Pair.split (c :: cs)).value with
    | .error fault => .error fault
    | .ok nanos =>
      if Pair.wordLimit ≤ total + nanos then .error .tooLarge
      else sumPairs (total + nanos) (Pair.split (c :: cs)).rest
termination_by cs.length
decreasing_by exact Pair.length_rest_split_lt c cs

/-- The sum of `total` and of the pairs of a text in a build that checks its sums, unless that breaks
down. -/
def sumPairsChecked (total : Nat) (cs : List Char) : Option (Except Fault Nat) :=
  match cs with
  | [] => some (.ok total)
  | c :: cs =>
    match (Pair.split (c :: cs)).valueChecked with
    | none => none
    | some (.error fault) => some (.error fault)
    | some (.ok nanos) =>
      if Pair.wordLimit ≤ total + nanos then some (.error .tooLarge)
      else sumPairsChecked (total + nanos) (Pair.split (c :: cs)).rest
termination_by cs.length
decreasing_by exact Pair.length_rest_split_lt c cs

/-- Takes the sign off a text and says whether it is negative. -/
def splitSign : List Char → Bool × List Char
  | '-' :: cs => (true, cs)
  | '+' :: cs => (false, cs)
  | cs => (false, cs)

/-- The duration of a text with the given sign, whose pairs come to a sum. -/
def ofSum (input : String) (isNegative : Bool) : Except Fault Nat → Except ReadError Duration
  | .error fault => .error (fault.toError input)
  | .ok total =>
    if isNegative ∧ 0 < total then .error (.negative input)
    else
      match ofNanos? total with
      | some d => .ok d
      | none => .error (.outOfRange input)

/-- Reads a duration. -/
def parse (input : String) : Except ReadError Duration :=
  match splitSign input.toList with
  | (_, ['0']) => .ok zero
  | (_, []) => .error (.invalid input)
  | (isNegative, cs) => ofSum input isNegative (sumPairs 0 cs)

/-- Reads a duration in a build that checks its sums, unless that breaks down. -/
def parseChecked (input : String) : Option (Except ReadError Duration) :=
  match splitSign input.toList with
  | (_, ['0']) => some (.ok zero)
  | (_, []) => some (.error (.invalid input))
  | (isNegative, cs) => (sumPairsChecked 0 cs).map (ofSum input isNegative)

end EdgeInclude.Duration
