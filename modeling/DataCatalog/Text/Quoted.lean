import DataCatalog.Text.Unprintable

/-!
# Quoted texts

A text in double quotes as messages show it: the quote, the backslash and the usual controls have
short escapes, other characters without a printed form are shown by their number, all else stands
for itself.
-/

namespace DataCatalog.Text

/-- The digits of a code point, lower case and without leading zeros. -/
def hexDigits (n : Nat) : List Char :=
  Nat.toDigits 16 n

def quoteChar (c : Char) : List Char :=
  match c with
  | '\x00' => ['\\', '0']
  | '\t' => ['\\', 't']
  | '\r' => ['\\', 'r']
  | '\n' => ['\\', 'n']
  | '"' => ['\\', '"']
  | '\\' => ['\\', '\\']
  | c =>
    if isUnprintable c then '\\' :: 'u' :: '\x7b' :: (hexDigits c.toNat ++ ['\x7d']) else [c]

/-- The text between double quotes, each character escaped as needed. -/
def quoted (s : String) : String :=
  String.ofList ('"' :: (s.toList.flatMap quoteChar ++ ['"']))

example : quoteChar '\u0301' = "\\u\x7b301\x7d".toList := by decide +kernel

example : quoteChar '\'' = ['\''] := by decide +kernel

end DataCatalog.Text
