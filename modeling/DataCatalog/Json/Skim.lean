import DataCatalog.Json.Reader

/-!
# Skipping values

A value that is not wanted is passed over without being built.  Its text has to follow the
grammar, but numbers of any size, unpaired surrogates and any nesting are let through.
-/

namespace DataCatalog.Json

/-- Passes over a text after its opening quote. -/
def skimString : List Char → Except SyntaxError (Unit × List Char)
  | [] => .error .endInString
  | '"' :: rest => .ok ((), rest)
  | '\\' :: 'u' :: a :: b :: c :: d :: rest =>
    if (codeUnit? a b c d).isSome then skimString rest else .error .invalidEscape
  | '\\' :: c :: rest =>
    if (unescape? c).isSome then skimString rest else .error .invalidEscape
  | c :: rest => if c = '\\' ∨ c.toNat < 0x20 then .error .controlCharacter else skimString rest

/-- Passes over a value that holds fewer than `depth` nested arrays and objects. -/
def skimValue : Nat → Reader Unit
  | 0, _ => .error .tooDeep
  | depth + 1, s =>
    match skipSpace s with
    | [] => .error .endInValue
    | c :: rest =>
      if c = 'n' then (literal ['u', 'l', 'l'] rest).map ((), ·)
      else if c = 't' then (literal ['r', 'u', 'e'] rest).map ((), ·)
      else if c = 'f' then (literal ['a', 'l', 's', 'e'] rest).map ((), ·)
      else if c = '"' then skimString rest
      else if c = '[' then (readArray (skimValue depth) rest).map fun (_, rest) => ((), rest)
      else if c = '\x7b' then
        (readObject skimString (fun _ => skimValue depth) rest).map fun (_, rest) => ((), rest)
      else if c = '-' ∨ c.isDigit then
        (Numeral.scan (c :: rest)).map fun (_, rest) => ((), rest)
      else .error .expectedValue

/-- Passes over a value.  Each bracket takes a character, so the text bounds the nesting. -/
def skim : Reader Unit := fun s =>
  skimValue (s.length + 1) s

end DataCatalog.Json
