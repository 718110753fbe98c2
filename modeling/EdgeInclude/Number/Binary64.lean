import EdgeInclude.Text.Decimal

/-!
# Binary floating-point numbers

The numbers of the 64-bit binary format without their sign: `significand * 2 ^ exponent`.
`Binary64.ofRatio?` is the number next to a ratio, and `Binary64.shortest` the shortest decimal that
leads back to a number.

A decimal leads to a number if it lies between the points half way to the neighbours of that
number; the points themselves do so when the significand is even. So the shortest decimal lies on
the coarsest grid of powers of ten that has a point there.
-/

namespace EdgeInclude

/-- The number `significand * 2 ^ exponent`. -/
structure Binary64 where
  significand : Nat
  exponent : Int
deriving DecidableEq, Repr

namespace Binary64

/-- The least exponent. -/
def minExponent : Int := -1074

/-- The greatest exponent. -/
def maxExponent : Int := 971

/-- The least significand of a number whose exponent is not the least. -/
def minSignificand : Nat := Nat.pow 2 52

/-- Zero. -/
def zero : Binary64 := ⟨0, minExponent⟩

/-- The ratio `num / den / base ^ power` as a ratio of whole numbers. -/
def scaled (base num den : Nat) (power : Int) : Nat × Nat :=
  if 0 ≤ power then (num, den * Nat.pow base power.toNat)
  else (num * Nat.pow base (-power).toNat, den)

/-- Where a point goes that lies half way between two whole numbers. -/
inductive Tie where
  /-- To the even one. -/
  | even
  /-- To the greater one. -/
  | up
deriving DecidableEq, Repr

/-- The whole number next to a ratio. -/
def nearest (tie : Tie) (num den : Nat) : Nat :=
  let floor := num / den
  let rest := 2 * (num % den)
  if rest < den ∨ (rest = den ∧ tie = .even ∧ floor % 2 = 0) then floor else floor + 1

/-- The whole number next to a ratio is at most half a unit away from it. -/
theorem nearest_mul_bounds (tie : Tie) (num : Nat) {den : Nat} (h : 0 < den) :
    2 * num ≤ (2 * nearest tie num den + 1) * den ∧
      2 * nearest tie num den * den ≤ 2 * num + den := by
  have hdiv := Nat.div_add_mod num den
  have hmod := Nat.mod_lt num h
  simp only [nearest]
  generalize num / den = q at *
  generalize num % den = r at *
  have hmul : q * den = den * q := Nat.mul_comm q den
  split <;> simp only [Nat.add_mul, Nat.mul_assoc, Nat.one_mul, Nat.mul_add, Nat.mul_one, hmul] <;>
    omega

/-- The exponent of the number next to a ratio, before its significand is rounded. -/
def exponentOf (num den : Nat) : Int :=
  let guess : Int := max minExponent ((num.log2 : Int) - (den.log2 : Int) - 52)
  let (n, d) := scaled 2 num den guess
  if n / d < minSignificand ∧ minExponent < guess then guess - 1 else guess

/-- The number next to a ratio, unless that is too great; a tie goes to the even significand. -/
def ofRatio? (num den : Nat) : Option Binary64 :=
  if num = 0 then some zero
  else
    let exponent := exponentOf num den
    let (n, d) := scaled 2 num den exponent
    let significand := nearest .even n d
    let rounded : Binary64 :=
      if significand = 2 * minSignificand then ⟨minSignificand, exponent + 1⟩
      else ⟨significand, exponent⟩
    if maxExponent < rounded.exponent then none else some rounded

/-- The number as a ratio. -/
def toRatio (b : Binary64) : Nat × Nat :=
  scaled 2 b.significand 1 (-b.exponent)

/-- The number next to the product of two numbers. -/
def mul? (a b : Binary64) : Option Binary64 :=
  ofRatio? (a.toRatio.1 * b.toRatio.1) (a.toRatio.2 * b.toRatio.2)

/-- The number next to the quotient of two numbers. -/
def div? (a b : Binary64) : Option Binary64 :=
  ofRatio? (a.toRatio.1 * b.toRatio.2) (a.toRatio.2 * b.toRatio.1)

/-- The number next to `significand * 10 ^ exponent`, unless that is too great. Exponents so far
out that the answer is plain are settled first. -/
def ofDecimal? (significand : Nat) (exponent : Int) : Option Binary64 :=
  let magnitude : Int := (Text.digits significand).length + exponent
  if significand = 0 ∨ magnitude < -330 then some zero
  else if 310 < magnitude then none
  else
    let (n, d) := scaled 10 significand 1 (-exponent)
    ofRatio? n d

/-! ### Shortest decimals -/

/-- The interval of what leads to a number, in quarters of its last binary place. -/
def interval (b : Binary64) : Nat × Nat :=
  let below :=
    if b.significand = minSignificand ∧ minExponent < b.exponent then 1 else 2
  (4 * b.significand - below, 4 * b.significand + 2)

/-- The point of the grid of `10 ^ power` that leads to the number and is nearest to it, if there is
one. -/
def onGrid? (tie : Tie) (b : Binary64) (power : Int) : Option Nat :=
  let (n, d) := scaled 2 1 1 (2 - b.exponent)
  let (n, d) := scaled 10 n d power
  let (low, high) := b.interval
  let inside (c : Nat) : Bool :=
    c ≠ 0 && if b.significand % 2 = 0 then decide (low * n ≤ c * d) && decide (c * d ≤ high * n)
      else decide (low * n < c * d) && decide (c * d < high * n)
  let floor := 4 * b.significand * n / d
  [nearest tie (4 * b.significand * n) d, floor, floor + 1].find? inside

/-- The powers of ten whose grids are looked at, the coarsest first. -/
def gridPowers : List Int :=
  (List.range 660).map fun (i : Nat) => 310 - (i : Int)

/-- The shortest decimal that leads to a number, as digits and a power of ten. Of several the one
nearest to the number is taken, and of two equally near ones the one that `tie` says. -/
def shortest (tie : Tie) (b : Binary64) : List Char × Int :=
  if b.significand = 0 then (['0'], 0)
  else (gridPowers.findSome? fun power =>
    (b.onGrid? tie power).map fun point => (Text.digits point, power)).getD (['0'], 0)

/-- Digits with the point behind the first `place` of them. -/
def positional (digits : List Char) (place : Int) : List Char :=
  let count : Int := digits.length
  if place ≤ 0 then '0' :: '.' :: (List.replicate (-place).toNat '0' ++ digits)
  else if count ≤ place then digits ++ List.replicate (place - count).toNat '0' ++ ['.', '0']
  else digits.take place.toNat ++ '.' :: digits.drop place.toNat

/-- The shortest decimal with all its places; of two equally near ones it is the greater. -/
def printPlain (b : Binary64) : String :=
  let (digits, power) := b.shortest .up
  String.ofList (positional digits (digits.length + power))

/-- The shortest decimal; of two equally near ones it is the even one. A number whose point is far
from its digits is written with an exponent, which always has a sign. -/
def printCompact (b : Binary64) : String :=
  let (digits, power) := b.shortest .even
  let place : Int := digits.length + power
  if -5 < place ∧ place ≤ 16 then String.ofList (positional digits place)
  else
    let mantissa := match digits with
      | first :: next :: rest => first :: '.' :: next :: rest
      | short => short
    let exponent := place - 1
    String.ofList (mantissa ++ ['e', if exponent < 0 then '-' else '+']) ++
      Text.decimal exponent.natAbs

end Binary64

end EdgeInclude
