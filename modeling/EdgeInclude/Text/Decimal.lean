/-!
# Decimal digits

ASCII digits, the number a run of them spells, and a number written with leading zeros.
-/

namespace EdgeInclude.Text

/-- An ASCII digit. -/
def isDigit (c : Char) : Bool :=
  '0' ≤ c && c ≤ '9'

/-- What a digit counts for. -/
def digitValue (c : Char) : Nat :=
  c.toNat - '0'.toNat

/-- The number that a run of digits spells, first digit first. -/
def digitsValue (ds : List Char) : Nat :=
  ds.foldl (fun n d => 10 * n + digitValue d) 0

/-- The decimal digits of a number, without leading zeros. -/
def digits (n : Nat) : List Char :=
  Nat.toDigits 10 n

/-- The decimal digits of a number as a text. -/
def decimal (n : Nat) : String :=
  String.ofList (digits n)

/-- A number below `10 ^ width` written with exactly `width` digits. -/
def paddedDigits : (width : Nat) → (n : Nat) → List Char
  | 0, _ => []
  | width + 1, n => paddedDigits width (n / 10) ++ [Char.ofNat ('0'.toNat + n % 10)]

@[simp]
theorem length_paddedDigits (width n : Nat) : (paddedDigits width n).length = width := by
  induction width generalizing n with
  | zero => rfl
  | succ width ih => simp [paddedDigits, ih]

end EdgeInclude.Text
