import DataCatalog.Json.Numeral
import DataCatalog.Json.Syntax
import DataCatalog.Text.Hex

/-!
# Reading JSON text

A document is one value between blanks.  An object keeps the order in which its keys first appear,
and a repeated key takes its last value.  At most 127 arrays and objects may enclose a value.
-/

namespace DataCatalog.Json

def isSpace (c : Char) : Bool :=
  c == ' ' || c == '\t' || c == '\n' || c == '\r'

/-- The text from its first character that is no blank. -/
def skipSpace (s : List Char) : List Char :=
  s.dropWhile isSpace

/-- Reads the rest of a word such as `null`. -/
def literal : List Char → List Char → Except SyntaxError (List Char)
  | [], s => .ok s
  | _ :: _, [] => .error .endInValue
  | expected :: more, c :: rest =>
    if c = expected then literal more rest else .error .expectedLiteral

/-- The value of four digits of base sixteen. -/
def codeUnit? (a b c d : Char) : Option Nat := do
  let a ← Text.hexValue? a
  let b ← Text.hexValue? b
  let c ← Text.hexValue? c
  let d ← Text.hexValue? d
  some (4096 * a + 256 * b + 16 * c + d)

/-- The fault of an escape by number without four digits: the text ends when fewer than four bytes
are left of it. -/
def shortEscape (s : List Char) : SyntaxError :=
  if s.foldl (fun size c => size + c.utf8Size) 0 < 4 then .endInString else .invalidEscape

/-- The character that a one-letter escape stands for. -/
def unescape? (c : Char) : Option Char :=
  if c = '"' ∨ c = '\\' ∨ c = '/' then some c
  else if c = 'b' then some '\x08'
  else if c = 'f' then some '\x0c'
  else if c = 'n' then some '\n'
  else if c = 'r' then some '\r'
  else if c = 't' then some '\t'
  else none

/-- The character of a pair of surrogates. -/
def ofSurrogates (high low : Nat) : Char :=
  Char.ofNat (0x10000 + (high - 0xd800) * 0x400 + (low - 0xdc00))

def isHighSurrogate (unit : Nat) : Bool :=
  0xd800 ≤ unit && unit < 0xdc00

def isLowSurrogate (unit : Nat) : Bool :=
  0xdc00 ≤ unit && unit < 0xe000

/-- Puts a character in front of a text that was read. -/
def consChar (c : Char) (read : List Char × List Char) : List Char × List Char :=
  (c :: read.1, read.2)

/-- Reads a text up to its closing quote.  After an escape that is a high surrogate, `high` holds it
and its partner must follow. -/
def stringBody : Option Nat → Reader (List Char)
  | none, [] => .error .endInString
  | none, '"' :: rest => .ok ([], rest)
  | none, '\\' :: 'u' :: a :: b :: c :: d :: rest =>
    match codeUnit? a b c d with
    | none => .error .invalidEscape
    | some unit =>
      if isLowSurrogate unit then .error .loneSurrogate
      else if isHighSurrogate unit then stringBody (some unit) rest
      else (stringBody none rest).map (consChar (Char.ofNat unit))
  | none, '\\' :: 'u' :: rest => .error (shortEscape rest)
  | none, '\\' :: c :: rest =>
    match unescape? c with
    | some c => (stringBody none rest).map (consChar c)
    | none => .error .invalidEscape
  | none, '\\' :: [] => .error .endInString
  | none, c :: rest =>
    if c.toNat < 0x20 then .error .controlCharacter
    else (stringBody none rest).map (consChar c)
  | some high, '\\' :: 'u' :: a :: b :: c :: d :: rest =>
    match codeUnit? a b c d with
    | none => .error .invalidEscape
    | some low =>
      if isLowSurrogate low then (stringBody none rest).map (consChar (ofSurrogates high low))
      else .error .loneSurrogate
  | some _, '\\' :: 'u' :: rest => .error (shortEscape rest)
  | some _, '\\' :: [] => .error .endInString
  | some _, [] => .error .endInString
  | some _, _ => .error .unpairedEscape

/-- Reads a text after its opening quote. -/
def readString : Reader String := fun s => do
  let (chars, rest) ← stringBody none s
  .ok (String.ofList chars, rest)

variable {α κ : Type}

/-- Reads the items of an array from the first one on; `count` bounds their number. -/
def readItems (item : Reader α) : Nat → Reader (List α)
  | 0, _ => .error .endInArray
  | count + 1, s => do
    let (first, rest) ← item s
    match skipSpace rest with
    | [] => .error .endInArray
    | ']' :: rest => .ok ([first], rest)
    | ',' :: rest =>
      match skipSpace rest with
      | [] => .error .endInValue
      | ']' :: _ => .error .trailingComma
      | rest => do
        let (more, rest) ← readItems item count rest
        .ok (first :: more, rest)
    | _ => .error .expectedItemEnd

/-- Reads an array after its opening bracket. -/
def readArray (item : Reader α) : Reader (List α) := fun s =>
  match skipSpace s with
  | [] => .error .endInArray
  | ']' :: rest => .ok ([], rest)
  | rest => readItems item rest.length rest

/-- Reads a member from the opening quote of its key on. -/
def readMember (key : Reader κ) (value : κ → Reader α) : Reader (κ × α) := fun s =>
  match s with
  | '"' :: rest => do
    let (name, rest) ← key rest
    match skipSpace rest with
    | [] => .error .endInObject
    | ':' :: rest => do
      let (content, rest) ← value name rest
      .ok ((name, content), rest)
    | _ => .error .expectedColon
  | _ => .error .keyNotString

/-- Reads the members of an object from the first one on; `count` bounds their number. -/
def readMembers (key : Reader κ) (value : κ → Reader α) : Nat → Reader (List (κ × α))
  | 0, _ => .error .endInObject
  | count + 1, s => do
    let (first, rest) ← readMember key value s
    match skipSpace rest with
    | [] => .error .endInObject
    | '\x7d' :: rest => .ok ([first], rest)
    | ',' :: rest =>
      match skipSpace rest with
      | [] => .error .endInValue
      | '\x7d' :: _ => .error .trailingComma
      | rest => do
        let (more, rest) ← readMembers key value count rest
        .ok (first :: more, rest)
    | _ => .error .expectedMemberEnd

/-- Reads an object after its opening brace. -/
def readObject (key : Reader κ) (value : κ → Reader α) : Reader (List (κ × α)) := fun s =>
  match skipSpace s with
  | [] => .error .endInObject
  | '\x7d' :: rest => .ok ([], rest)
  | rest => readMembers key value rest.length rest

/-- The members of an object whose keys may repeat. -/
def collect (read : List (String × α)) : List (String × α) :=
  read.foldl (fun entries (key, value) => Entries.put key value entries) []

/-- Reads a value that may hold fewer than `depth` nested arrays and objects. -/
def readValue : Nat → Reader Json
  | 0, _ => .error .tooDeep
  | depth + 1, s =>
    match skipSpace s with
    | [] => .error .endInValue
    | c :: rest =>
      if c = 'n' then (literal ['u', 'l', 'l'] rest).map (.null, ·)
      else if c = 't' then (literal ['r', 'u', 'e'] rest).map (.bool true, ·)
      else if c = 'f' then (literal ['a', 'l', 's', 'e'] rest).map (.bool false, ·)
      else if c = '"' then (readString rest).map fun (text, rest) => (.string text, rest)
      else if c = '[' then
        if depth = 0 then .error .tooDeep
        else (readArray (readValue depth) rest).map fun (items, rest) => (.array items, rest)
      else if c = '\x7b' then
        if depth = 0 then .error .tooDeep
        else
          (readObject readString (fun _ => readValue depth) rest).map
            fun (members, rest) => (.object (collect members), rest)
      else if c = '-' ∨ c.isDigit then
        (readNumber (c :: rest)).map fun (n, rest) => (.number n, rest)
      else .error .expectedValue

def depthLimit : Nat :=
  128

def parseChars (s : List Char) : Except SyntaxError Json := do
  let (value, rest) ← readValue depthLimit s
  if skipSpace rest = [] then .ok value else .error .trailingCharacters

def parse (text : String) : Except SyntaxError Json :=
  parseChars text.toList

end DataCatalog.Json
