import DataCatalog.Binary64.Basic

/-!
# Decimals and doubles

A decimal is a coefficient times a power of ten.  Each decimal has a nearest double, and each
finite double has a shortest decimal: of the decimals with the fewest digits that read back as the
double, the one nearest to it.  Main statement: a decimal that is found by the search reads back
as its double.
-/

namespace DataCatalog

/-- The number `coefficient * 10 ^ exponent`. -/
structure Decimal where
  coefficient : Nat
  exponent : Int
  deriving DecidableEq, Repr

/-- How many decimal digits a number has; zero has one. -/
def digitCount (n : Nat) : Nat :=
  (Nat.toDigits 10 n).length

namespace Decimal

/-- The magnitude in units of the least positive double, as a quotient. -/
def units (d : Decimal) : Nat × Nat :=
  if 0 ≤ d.exponent then (d.coefficient * Nat.pow 10 d.exponent.toNat * Binary64.one, 1)
  else (d.coefficient * Binary64.one, Nat.pow 10 (-d.exponent).toNat)

/-- The magnitude rounded to 53 significant bits, in units. -/
def roundedUnits (d : Decimal) : Nat :=
  Binary64.roundUnits d.units.1 d.units.2

/-- The nearest double.  From `10 ^ 310` on it is infinite and below `10 ^ -330` it is zero,
whatever the digits are. -/
def toBinary64 (negative : Bool) (d : Decimal) : Binary64 :=
  if d.coefficient = 0 then .finite (.zero negative)
  else
    let size := (digitCount d.coefficient : Int) + d.exponent
    if 310 < size then .infinite negative
    else if size < -330 then .finite (.zero negative)
    else Binary64.ofUnits negative d.units.1 d.units.2

end Decimal

/-- Which of two equally near decimals is taken. -/
inductive Tie where
  | up
  | even

namespace Binary64

/-- The power of ten of the leading digit of a magnitude that is not zero. -/
def leadingPower (units : Nat) : Int :=
  (digitCount (units * Nat.pow 10 400 / one) : Int) - 401

/-- The magnitude in steps of `10 ^ power`, as a quotient. -/
def inSteps (units : Nat) (power : Int) : Nat × Nat :=
  if 0 ≤ power then (units, one * Nat.pow 10 power.toNat)
  else (units * Nat.pow 10 (-power).toNat, one)

/-- The nearer of the two neighbours of `num / den`. -/
def nearerNeighbour (tie : Tie) (num den : Nat) : Nat :=
  let q := num / den
  let r := num % den
  if 2 * r < den then q
  else if den < 2 * r then q + 1
  else match tie with
    | .up => q + 1
    | .even => if q % 2 = 0 then q else q + 1

def readsBack (units : Nat) (d : Decimal) : Bool :=
  d.roundedUnits == units

/-- The decimals around a magnitude that are multiples of `10 ^ power`, the nearest one first. -/
def neighbours (tie : Tie) (units : Nat) (power : Int) : List Decimal :=
  let (num, den) := inSteps units power
  [⟨nearerNeighbour tie num den, power⟩, ⟨num / den, power⟩, ⟨num / den + 1, power⟩]

/-- The decimals of `count` digits around a magnitude. -/
def candidates (tie : Tie) (units : Nat) (count : Nat) : List Decimal :=
  neighbours tie units (leadingPower units + 1 - (count : Int))

/-- The nearest decimal of `count` digits that reads back, if there is one. -/
def ofDigitCount? (tie : Tie) (units : Nat) (count : Nat) : Option Decimal :=
  (candidates tie units count).find? (readsBack units)

/-- A decimal found for a number of digits reads back as the magnitude. -/
theorem readsBack_of_ofDigitCount? {tie : Tie} {units count : Nat} {d : Decimal}
    (h : ofDigitCount? tie units count = some d) : readsBack units d = true :=
  List.find?_some h

/-- The decimal without trailing zeros in its coefficient, at most `count` of them. -/
def dropZeros : Nat → Decimal → Decimal
  | 0, d => d
  | count + 1, d =>
    if d.coefficient % 10 = 0 then dropZeros count ⟨d.coefficient / 10, d.exponent + 1⟩ else d

/-- The shortest decimal of a magnitude that is not zero.  Seventeen digits always suffice. -/
def shortest (tie : Tie) (units : Nat) : Decimal :=
  ((List.range' 1 17).findSome? (ofDigitCount? tie units)).elim ⟨0, 0⟩ (dropZeros 17)

end Binary64

namespace Decimal

def digits (d : Decimal) : List Char :=
  Nat.toDigits 10 d.coefficient

/-- The power of ten of the leading digit. -/
def leading (d : Decimal) : Int :=
  (digitCount d.coefficient : Int) - 1 + d.exponent

/-- The number without an exponent.  A whole number gets `.0` where the point is asked for. -/
def positional (point : Bool) (d : Decimal) : List Char :=
  if 0 ≤ d.exponent then
    d.digits ++ List.replicate d.exponent.toNat '0' ++ (if point then ['.', '0'] else [])
  else
    let places := (-d.exponent).toNat
    let digits := List.replicate (places + 1 - d.digits.length) '0' ++ d.digits
    digits.take (digits.length - places) ++ '.' :: digits.drop (digits.length - places)

/-- The number with one digit before the point and a signed exponent. -/
def scientific (d : Decimal) : List Char :=
  let exponent := (if d.leading < 0 then '-' else '+') :: Nat.toDigits 10 d.leading.natAbs
  match d.digits with
  | first :: second :: rest => first :: '.' :: second :: rest ++ 'e' :: exponent
  | digits => digits ++ 'e' :: exponent

end Decimal

namespace Binary64.Finite

/-- The shortest digits, never with an exponent and without a point on whole numbers. -/
def display (x : Finite) : List Char :=
  (if x.negative then ['-'] else [])
    ++ (if x.isZero then ['0'] else (shortest .up x.units).positional false)

end Binary64.Finite

/-- The shortest digits without an exponent, and names for the numbers that have no digits. -/
def Binary64.display : Binary64 → String
  | .nan => "NaN"
  | .infinite false => "inf"
  | .infinite true => "-inf"
  | .finite x => String.ofList x.display

end DataCatalog
