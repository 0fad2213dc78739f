import DataCatalog.Binary64.Decimal
import DataCatalog.Json.Basic
import DataCatalog.Text.Hex
import DataCatalog.Text.Integer

/-!
# JSON text

The compact text of a value: no blanks, members in order, whole numbers plainly, doubles with the
shortest digits that read back, a tie going to the even digit.  Only the quote, the backslash and
the characters below the space are escaped.
-/

namespace DataCatalog.Json

def escape (c : Char) : List Char :=
  if c = '"' then ['\\', '"']
  else if c = '\\' then ['\\', '\\']
  else if c = '\x08' then ['\\', 'b']
  else if c = '\x0c' then ['\\', 'f']
  else if c = '\n' then ['\\', 'n']
  else if c = '\r' then ['\\', 'r']
  else if c = '\t' then ['\\', 't']
  else if c.toNat < 0x20 then
    ['\\', 'u', '0', '0', Text.lowerHex (c.toNat / 16), Text.lowerHex (c.toNat % 16)]
  else [c]

def quote (s : List Char) : List Char :=
  '"' :: (s.flatMap escape ++ ['"'])

/-- Doubles are written positionally from `10 ^ -5` up to `10 ^ 16`, and then have a fraction. -/
def writeMagnitude (units : Nat) : List Char :=
  if units = 0 then ['0', '.', '0']
  else
    let d := Binary64.shortest .even units
    if -5 ≤ d.leading ∧ d.leading < 16 then d.positional true else d.scientific

def Number.write : Number → List Char
  | .integer n _ _ => Text.writeInt n
  | .float x => (if x.negative then ['-'] else []) ++ writeMagnitude x.units

mutual

def write : Json → List Char
  | .null => ['n', 'u', 'l', 'l']
  | .bool true => ['t', 'r', 'u', 'e']
  | .bool false => ['f', 'a', 'l', 's', 'e']
  | .number n => n.write
  | .string s => quote s.toList
  | .array [] => ['[', ']']
  | .array (item :: rest) => '[' :: (write item ++ writeItems rest)
  | .object [] => ['\x7b', '\x7d']
  | .object ((key, value) :: rest) =>
    '\x7b' :: (quote key.toList ++ ':' :: (write value ++ writeMembers rest))

/-- The items after the first one, and the closing bracket. -/
def writeItems : List Json → List Char
  | [] => [']']
  | item :: rest => ',' :: (write item ++ writeItems rest)

/-- The members after the first one, and the closing brace. -/
def writeMembers : List (String × Json) → List Char
  | [] => ['\x7d']
  | (key, value) :: rest =>
    ',' :: (quote key.toList ++ ':' :: (write value ++ writeMembers rest))

end

def render (value : Json) : String :=
  String.ofList value.write

end DataCatalog.Json
