import DataCatalog.Binary64.Decimal

/-!
# Doubles in plain text

An optional sign, then digits with an optional point and an optional power of ten, or the name of
an infinity or of the value that is no number, in letters of any case.  The result is the nearest
double.
-/

namespace DataCatalog.Binary64

/-- A text without its sign, and whether the sign is a minus. -/
def splitSign : List Char → Bool × List Char
  | '-' :: rest => (true, rest)
  | '+' :: rest => (false, rest)
  | s => (false, s)

/-- A power of ten after a coefficient: nothing, or `e` and a signed run of digits up to the end. -/
def exponent? : List Char → Option Int
  | [] => some 0
  | c :: rest =>
    if c = 'e' ∨ c = 'E' then
      let (negative, digits) := splitSign rest
      if digits ≠ [] ∧ digits.all Char.isDigit then
        let n := Nat.ofDigitChars 10 digits 0
        some (if negative then -(n : Int) else n)
      else none
    else none

/-- Digits with an optional point among them and an optional power of ten behind them. -/
def decimal? (s : List Char) : Option Decimal :=
  let whole := s.takeWhile Char.isDigit
  let (fraction, rest) :=
    match s.dropWhile Char.isDigit with
    | '.' :: rest => (rest.takeWhile Char.isDigit, rest.dropWhile Char.isDigit)
    | rest => ([], rest)
  if whole ++ fraction = [] then none
  else
    (exponent? rest).map fun exponent =>
      ⟨Nat.ofDigitChars 10 (whole ++ fraction) 0, exponent - fraction.length⟩

def parse? (s : List Char) : Option Binary64 :=
  let (negative, body) := splitSign s
  match decimal? body with
  | some d => some (d.toBinary64 negative)
  | none =>
    let name := body.map Char.toLower
    if name = "inf".toList ∨ name = "infinity".toList then some (.infinite negative)
    else if name = "nan".toList then some .nan
    else none

end DataCatalog.Binary64
