/-!
# Whole numbers in a fixed range

An optional sign and ASCII digits, read from left to right: the first character that is no digit
and the first digit that leaves the range are both refused where they stand.
-/

namespace DataCatalog.Text

/-- Why a text is no whole number of the wanted range. -/
inductive IntegerError where
  | empty
  | invalidDigit
  | tooLarge
  | tooSmall
  deriving DecidableEq

def IntegerError.message : IntegerError → String
  | .empty => "cannot parse integer from empty string"
  | .invalidDigit => "invalid digit found in string"
  | .tooLarge => "number too large to fit in target type"
  | .tooSmall => "number too small to fit in target type"

/-- A whole number in digits, with a minus where it is negative. -/
def writeInt (n : Int) : List Char :=
  (if n < 0 then ['-'] else []) ++ Nat.toDigits 10 n.natAbs

def digitValue (c : Char) : Nat :=
  c.toNat - '0'.toNat

/-- Reads digits after a part whose value is `value`; `beyond` is the error above `limit`. -/
def readDigits (limit : Nat) (beyond : IntegerError) (value : Nat) :
    List Char → Except IntegerError Nat
  | [] => .ok value
  | c :: rest =>
    if c.isDigit then
      let next := 10 * value + digitValue c
      if next ≤ limit then readDigits limit beyond next rest else .error beyond
    else .error .invalidDigit

/-- Reads a magnitude: at least one digit. -/
def readMagnitude (limit : Nat) (beyond : IntegerError) (digits : List Char) :
    Except IntegerError Nat :=
  if digits = [] then .error .invalidDigit else readDigits limit beyond 0 digits

def parseInt64 (s : List Char) : Except IntegerError Int64 :=
  match s with
  | [] => .error .empty
  | '-' :: digits => (readMagnitude 0x8000000000000000 .tooSmall digits).map fun n => .ofInt (-n)
  | '+' :: digits => (readMagnitude 0x7FFFFFFFFFFFFFFF .tooLarge digits).map .ofNat
  | digits => (readMagnitude 0x7FFFFFFFFFFFFFFF .tooLarge digits).map .ofNat

def parseUInt64 (s : List Char) : Except IntegerError UInt64 :=
  match s with
  | [] => .error .empty
  | '+' :: digits => (readMagnitude 0xFFFFFFFFFFFFFFFF .tooLarge digits).map .ofNat
  | digits => (readMagnitude 0xFFFFFFFFFFFFFFFF .tooLarge digits).map .ofNat

example : parseInt64 ['-', '9'] = .ok (-9) := rfl

example : readDigits 10 .tooLarge 1 ['1', 'x'] = .error .tooLarge := rfl

example : readDigits 10 .tooLarge 1 ['x', '1'] = .error .invalidDigit := rfl

end DataCatalog.Text
