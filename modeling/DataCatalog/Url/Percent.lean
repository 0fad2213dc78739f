import DataCatalog.Text.Hex

/-!
# Percent-encoding

A character is escaped by writing each byte of its UTF-8 form as `%` and two digits of base
sixteen.  Characters beyond ASCII are always escaped; which ASCII characters are depends on the
place in the URL.
-/

namespace DataCatalog.Url

def escapeByte (b : UInt8) : List Char :=
  ['%', Text.upperHex (b.toNat / 16), Text.upperHex (b.toNat % 16)]

/-- The bytes of a character, each escaped. -/
def escapeChar (c : Char) : List Char :=
  (String.utf8EncodeChar c).flatMap escapeByte

def isAscii (c : Char) : Bool :=
  c.toNat < 0x80

/-- A character, escaped if it is in the set or beyond ASCII. -/
def encodeChar (set : Char → Bool) (c : Char) : List Char :=
  if isAscii c && !set c then [c] else escapeChar c

/-- A text with the characters of the set, and all beyond ASCII, escaped. -/
def encode (set : Char → Bool) (s : List Char) : List Char :=
  s.flatMap (encodeChar set)

/-- The bytes of a text after undoing escapes; a `%` without two digits stands for itself. -/
def decode : List Char → List UInt8
  | [] => []
  | '%' :: a :: b :: rest =>
    match Text.hexValue? a, Text.hexValue? b with
    | some high, some low => UInt8.ofNat (16 * high + low) :: decode rest
    | _, _ => String.utf8EncodeChar '%' ++ decode (a :: b :: rest)
  | c :: rest => String.utf8EncodeChar c ++ decode rest

/-- The text that bytes are the UTF-8 form of. -/
def text? (bytes : List UInt8) : Option String :=
  String.fromUTF8? bytes.toByteArray

def isControl (c : Char) : Bool :=
  c.toNat < 0x20 || c.toNat == 0x7f

/-- The characters escaped in a fragment. -/
def fragmentSet (c : Char) : Bool :=
  isControl c || [' ', '"', '<', '>', '`'].contains c

/-- The characters escaped in the query of a web address. -/
def querySet (c : Char) : Bool :=
  isControl c || [' ', '"', '#', '<', '>', '\''].contains c

/-- The characters escaped in a path that is read from a URL. -/
def pathSet (c : Char) : Bool :=
  fragmentSet c || ['#', '?', '\x7b', '\x7d'].contains c

/-- The characters escaped in user information. -/
def userInfoSet (c : Char) : Bool :=
  pathSet c || ['/', ':', ';', '=', '@', '[', '\\', ']', '^', '|'].contains c

/-- The characters escaped in a path segment that is added as a plain text. -/
def segmentSet (c : Char) : Bool :=
  pathSet c || ['/', '%', '\\'].contains c

/-- The ASCII characters that a form leaves as they are. -/
def isFormPlain (c : Char) : Bool :=
  c.isAlphanum || ['*', '-', '.', '_'].contains c

/-- A name or value of a form: a space is written as a plus. -/
def encodeFormText (s : List Char) : List Char :=
  s.flatMap fun c => if c = ' ' then ['+'] else encodeChar (fun c => !isFormPlain c) c

def encodeForm (pairs : List (String × String)) : List Char :=
  ['&'].intercalate
    (pairs.map fun (name, value) =>
      encodeFormText name.toList ++ '=' :: encodeFormText value.toList)

end DataCatalog.Url
