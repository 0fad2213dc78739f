import DataCatalog.Json.Basic
import DataCatalog.Json.Syntax

/-!
# Numbers in JSON text

A numeral is scanned first and given a value afterwards.  The value of a numeral without fraction
and exponent is a whole number as long as 64 bits hold it.  Any other numeral gathers the digits
that 64 bits hold, rounds them to a double, and multiplies or divides that by a double near a
power of ten: it is rounded up to three times and need not be the nearest double.
-/

namespace DataCatalog.Json

/-- The parts of a numeral: runs of digits, and the sign of the exponent. -/
structure Numeral where
  negative : Bool
  whole : List Char
  fraction : Option (List Char)
  exponent : Option (Bool × List Char)
  deriving DecidableEq

namespace Numeral

/-- A run of at least one digit. -/
def digits : Reader (List Char) := fun s =>
  match s with
  | [] => .error .endInValue
  | c :: _ =>
    if c.isDigit then .ok (s.takeWhile Char.isDigit, s.dropWhile Char.isDigit)
    else .error .invalidNumber

/-- The digits before the point: a leading zero stands alone. -/
def scanWhole : Reader (List Char) := fun s => do
  let (whole, rest) ← digits s
  if whole.head? = some '0' ∧ whole ≠ ['0'] then .error .invalidNumber else .ok (whole, rest)

def scanFraction : Reader (Option (List Char)) := fun s =>
  match s with
  | '.' :: rest => do
    let (fraction, rest) ← digits rest
    .ok (some fraction, rest)
  | _ => .ok (none, s)

/-- The exponent with its sign; `true` is a minus. -/
def scanExponent : Reader (Option (Bool × List Char)) := fun s =>
  match s with
  | c :: rest =>
    if c = 'e' ∨ c = 'E' then do
      let (negative, rest) :=
        match rest with
        | '-' :: rest => (true, rest)
        | '+' :: rest => (false, rest)
        | rest => (false, rest)
      let (exponent, rest) ← digits rest
      .ok (some (negative, exponent), rest)
    else .ok (none, s)
  | [] => .ok (none, s)

/-- A numeral with an optional minus in front. -/
def scan : Reader Numeral := fun s => do
  let (negative, rest) :=
    match s with
    | '-' :: rest => (true, rest)
    | s => (false, s)
  let (whole, rest) ← scanWhole rest
  let (fraction, rest) ← scanFraction rest
  let (exponent, rest) ← scanExponent rest
  .ok (⟨negative, whole, fraction, exponent⟩, rest)

/-- A significand, how many digits went into it, and how many did not. -/
structure Gathered where
  significand : Nat
  kept : Nat
  dropped : Nat

/-- Adds digits to a significand for as long as 64 bits hold it. -/
def gather (significand kept : Nat) : List Char → Gathered
  | [] => ⟨significand, kept, 0⟩
  | c :: rest =>
    let next := 10 * significand + (c.toNat - '0'.toNat)
    if next < 0x10000000000000000 then gather next (kept + 1) rest else ⟨significand, kept, rest.length + 1⟩

def tenPower (n : Nat) : Binary64 :=
  .ofInt (Nat.pow 10 n)

/-- The significand times a power of ten, rounded at each step. -/
def scale (significand : Nat) (exponent : Int) : Binary64 :=
  let f := Binary64.ofInt significand
  if significand = 0 then f
  else if 308 < exponent then .infinite false
  else if 0 ≤ exponent then f.mul (tenPower exponent.toNat)
  else
    let n := (-exponent).toNat
    if n ≤ 308 then f.div (tenPower n)
    else if n ≤ 616 then (f.div (tenPower 308)).div (tenPower (n - 308))
    else .finite (.zero false)

/-- A double with the wanted sign, which must be finite. -/
def signed (negative : Bool) (x : Binary64) : Except SyntaxError Number :=
  match x with
  | .finite x => .ok (.float { x with negative := negative })
  | _ => .error .numberOutOfRange

/-- The largest size of a written exponent. -/
def exponentLimit : Nat :=
  0x7FFFFFFF

/-- The value of a numeral that has a fraction or an exponent, or too many digits. -/
def toDouble (n : Numeral) : Except SyntaxError Number :=
  let whole := gather 0 0 n.whole
  let all := gather whole.significand 0 (n.fraction.getD [])
  let exponent : Int := (whole.dropped : Int) - all.kept
  match n.exponent with
  | none => signed n.negative (scale all.significand exponent)
  | some (negative, digits) =>
    let size := Nat.ofDigitChars 10 digits 0
    if exponentLimit < size then
      if all.significand ≠ 0 ∧ !negative then .error .numberOutOfRange
      else .ok (.float (.zero n.negative))
    else
      let written : Int := if negative then -size else size
      let total := max (-0x80000000) (min 0x7FFFFFFF (exponent + written))
      signed n.negative (scale all.significand total)

def toNumber (n : Numeral) : Except SyntaxError Number :=
  let value := Nat.ofDigitChars 10 n.whole 0
  if n.fraction.isSome ∨ n.exponent.isSome then toDouble n
  else if n.negative then
    if h : 0 < value ∧ value ≤ 0x8000000000000000 then
      .ok (.integer (-value) (by omega) (by omega))
    else toDouble n
  else if h : value < 0x10000000000000000 then .ok (.integer value (by omega) (by omega))
  else toDouble n

end Numeral

def readNumber : Reader Number := fun s => do
  let (numeral, rest) ← Numeral.scan s
  let number ← numeral.toNumber
  .ok (number, rest)

end DataCatalog.Json
