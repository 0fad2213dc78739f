/-!
# Syntax errors of JSON text
-/

namespace DataCatalog.Json

/-- Why a text is not a JSON document; the reading stops at the first fault. -/
inductive SyntaxError where
  | endInValue
  | endInArray
  | endInObject
  | endInString
  | expectedValue
  | expectedLiteral
  | invalidNumber
  | numberOutOfRange
  | invalidEscape
  | controlCharacter
  | unpairedEscape
  | loneSurrogate
  | expectedColon
  | expectedItemEnd
  | expectedMemberEnd
  | trailingComma
  | keyNotString
  | trailingCharacters
  | tooDeep
  deriving DecidableEq

def SyntaxError.message : SyntaxError → String
  | .endInValue => "EOF while parsing a value"
  | .endInArray => "EOF while parsing a list"
  | .endInObject => "EOF while parsing an object"
  | .endInString => "EOF while parsing a string"
  | .expectedValue => "expected value"
  | .expectedLiteral => "expected ident"
  | .invalidNumber => "invalid number"
  | .numberOutOfRange => "number out of range"
  | .invalidEscape => "invalid escape"
  | .controlCharacter => "control character (\\u0000-\\u001F) found while parsing a string"
  | .unpairedEscape => "unexpected end of hex escape"
  | .loneSurrogate => "lone leading surrogate in hex escape"
  | .expectedColon => "expected `:`"
  | .expectedItemEnd => "expected `,` or `]`"
  | .expectedMemberEnd => "expected `,` or `\x7d`"
  | .trailingComma => "trailing comma"
  | .keyNotString => "key must be a string"
  | .trailingCharacters => "trailing characters"
  | .tooDeep => "recursion limit exceeded"

/-- A reader takes what it reads off the front of a text and returns the rest. -/
abbrev Reader (α : Type) : Type :=
  List Char → Except SyntaxError (α × List Char)

end DataCatalog.Json
