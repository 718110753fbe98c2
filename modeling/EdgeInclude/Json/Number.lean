import EdgeInclude.Json.Basic
import EdgeInclude.Json.Scanner

/-!
# Numbers of JSON text

What a numeral is read as. Without point and exponent it is a whole number, as long as it fits a
64-bit word. All else is binary: the digits that fit an unsigned 64-bit word are kept, the others
count for their places only, and the power of ten is applied to the rounded digits and rounded once
more.
-/

namespace EdgeInclude.Json

open Scanner

/-- A number that JSON text spells. -/
inductive Number where
  | whole (n : Int)
  | binary (isNegative : Bool) (magnitude : Binary64)
deriving DecidableEq, Repr

/-- The greatest unsigned 64-bit word. -/
def maxWord : Nat := UInt64.size - 1

/-- Appends digits to a number while it fits a word: the number, and the digits that are left. -/
def appendDigits (n : Nat) : List Char → Nat × List Char
  | [] => (n, [])
  | d :: ds =>
    if maxWord < 10 * n + Text.digitValue d then (n, d :: ds)
    else appendDigits (10 * n + Text.digitValue d) ds

/-- The greatest power of ten that is applied at once. -/
def maxPower : Nat := 308

/-- A power of ten. -/
def powerOfTen (k : Nat) : Option Binary64 :=
  Binary64.ofRatio? (Nat.pow 10 k) 1

/-- Divides by a power of ten, by no more than `10 ^ maxPower` at once. -/
def scaleDown : (times : Nat) → Binary64 → Nat → Option Binary64
  | 0, b, _ => some b
  | times + 1, b, k =>
    if b.significand = 0 then some b
    else
      let step := min k maxPower
      match (powerOfTen step).bind b.div? with
      | none => none
      | some b => if k ≤ maxPower then some b else scaleDown times b (k - step)

/-- The number `significand * 10 ^ exponent`, unless that is too great. Four divisions take every
word to zero. -/
def scale (significand : Nat) (exponent : Int) : Option Binary64 :=
  match Binary64.ofRatio? significand 1 with
  | none => none
  | some b =>
    if b.significand = 0 then some b
    else if exponent < 0 then scaleDown 4 b exponent.natAbs
    else if maxPower < exponent.natAbs then none
    else (powerOfTen exponent.natAbs).bind b.mul?

/-- What a numeral is read as, unless it is too great. -/
def Number.ofNumeral? (numeral : Numeral) : Option Number :=
  let (n, left) := appendDigits 0 numeral.whole
  match left, numeral.places, numeral.exponent with
  | [], none, none =>
    if numeral.isNegative ∧ (n = 0 ∨ UInt64.size / 2 < n) then
      (Binary64.ofRatio? n 1).map (.binary true)
    else some (.whole (if numeral.isNegative then -(n : Int) else n))
  | _, places, exponent =>
    let places := places.getD []
    let (n, unused) := appendDigits n places
    let used : Int := (places.length : Int) - unused.length
    (scale n (left.length - used + exponent.getD 0)).map (.binary numeral.isNegative)

/-- The text of a number in a message. -/
def Number.describe : Number → String
  | whole n => "integer \x60" ++ String.ofList (numberChars n) ++ "\x60"
  | binary isNegative magnitude =>
    "floating point \x60" ++ (if isNegative then "-" else "") ++ magnitude.printCompact ++ "\x60"

end EdgeInclude.Json
