import DataCatalog.CommandLine.Fault
import DataCatalog.Json.Syntax
import DataCatalog.Json.Writer
import DataCatalog.Tag
import DataCatalog.Text.Quoted
import DataCatalog.Url.Host

/-!
# Errors

An error is a cause, with the field and the path of the catalog that it concerns if they are
known.  What is said about a cause, and how it is classified, is its report; each kind of error has
an exit code of its own.
-/

namespace DataCatalog

inductive ErrorKind where
  | internal
  | usage
  | notFound
  | alreadyExists
  | permission
  | io
  | unsupportedType
  | unknownMetadataType
  | noTypeInformation
  | malformed
  deriving DecidableEq

namespace ErrorKind

def all : List ErrorKind :=
  [.internal, .usage, .notFound, .alreadyExists, .permission, .io, .unsupportedType,
    .unknownMetadataType, .noTypeInformation, .malformed]

def name : ErrorKind → String
  | .internal => "Internal"
  | .usage => "Usage"
  | .notFound => "NotFound"
  | .alreadyExists => "AlreadyExists"
  | .permission => "Permission"
  | .io => "Io"
  | .unsupportedType => "UnsupportedType"
  | .unknownMetadataType => "UnknownMetadataType"
  | .noTypeInformation => "NoTypeInformation"
  | .malformed => "Malformed"

def exitCode : ErrorKind → Nat
  | .internal => 1
  | .usage => 2
  | .notFound => 3
  | .alreadyExists => 4
  | .permission => 5
  | .io => 6
  | .unsupportedType => 7
  | .unknownMetadataType => 8
  | .noTypeInformation => 9
  | .malformed => 10

theorem exitCode_ne_zero (k : ErrorKind) : k.exitCode ≠ 0 := by
  cases k <;> decide

theorem exitCode_injective {k l : ErrorKind} (h : k.exitCode = l.exitCode) : k = l := by
  cases k <;> cases l <;> first | rfl | cases h

end ErrorKind

structure Report where
  kind : ErrorKind
  message : Option String
  hint : Option String := none
  causes : List String := []
  deriving DecidableEq

inductive FileFault where
  | missing
  | denied
  | isDirectory
  | notDirectory
  | notText
  | other (message : String)
  deriving DecidableEq

namespace FileFault

def kind : FileFault → ErrorKind
  | .missing => .notFound
  | .denied => .permission
  | _ => .io

def message : FileFault → String
  | .missing => "No such file or directory (os error 2)"
  | .denied => "Permission denied (os error 13)"
  | .isDirectory => "Is a directory (os error 21)"
  | .notDirectory => "Not a directory (os error 20)"
  | .notText => "stream did not contain valid UTF-8"
  | .other message => message

end FileFault

inductive Cause where
  | nonFinite (value : Binary64)
  | noTag (kind : ScalarKind)
  | invalidJson (fault : Json.SyntaxError)
  | tagNotString
  | noTypeInformation
  | metadataKeyNotString
  | unknownMetadataType (tag : String)
  | unreadableScalar (value : Json) (kind : ScalarKind)
  | notATriple
  | malformedMetadata
  | locationsNotArray
  | locationNotObject
  | misplacedEntity (kind : EntityKind)
  | expectedInteger (found : Json)
  | expectedString (found : Json)
  | expectedEntity (found : String)
  | forbiddenFields (names allowed : List String)
  | unknownMode (text : String)
  | invalidBaseUrl (fault : Url.ParseError)
  | wrongScheme
  | invalidTimeout (fault : Text.IntegerError)
  | nameRequired
  | requestFailed
  | refused (kind : ErrorKind) (message : String) (hint : Option String)
  | unreadableResponse (fault : String)
  | invalidResponse (fault : Json.SyntaxError)
  | invalidArguments (fault : CommandLine.Fault)
  | invalidAssignment (option text : String)
  | unreadableFile (name : String) (fault : FileFault)
  | unreadableInput
  | other (report : Report)

/-- The report of a cause: its kind, its wording, what to do about it, and what lies behind it. -/
def Cause.report : Cause → Report
  | .nonFinite value =>
    { kind := .unsupportedType
      message := some ("decimal " ++ value.display ++ " has no json representation") }
  | .noTag kind =>
    { kind := .unsupportedType, message := some ("no metadata type tag for " ++ kind.name) }
  | .invalidJson fault =>
    { kind := .malformed, message := some "invalid json", causes := [fault.message] }
  | .tagNotString =>
    { kind := .malformed, message := some "_type must be a string" }
  | .noTypeInformation =>
    { kind := .noTypeInformation
      message := some "object has no recognized _type and is not a metadata triple"
      hint := some "pass a default type to decode untyped objects" }
  | .metadataKeyNotString =>
    { kind := .malformed, message := some "metadata key must be a string" }
  | .unknownMetadataType tag =>
    { kind := .unknownMetadataType
      message := some ("no mapping for metadata type " ++ Text.quoted tag) }
  | .unreadableScalar value kind =>
    { kind := .malformed, message := some ("cannot read " ++ value.render ++ " as " ++ kind.name) }
  | .notATriple =>
    { kind := .noTypeInformation
      message := some "metadata entry is not a key/value/type triple" }
  | .malformedMetadata =>
    { kind := .malformed
      message := some "metadata must be triples, [key, value] pairs or an object of scalars" }
  | .locationsNotArray =>
    { kind := .malformed, message := some "locations must be an array" }
  | .locationNotObject =>
    { kind := .malformed, message := some "location entries must be objects" }
  | .misplacedEntity kind =>
    { kind := .malformed, message := some ("locations may not hold a " ++ kind.tag) }
  | .expectedInteger found =>
    { kind := .malformed, message := some ("expected an integer, found " ++ found.render) }
  | .expectedString found =>
    { kind := .malformed, message := some ("expected a string, found " ++ found.render) }
  | .expectedEntity found =>
    { kind := .malformed, message := some ("expected a catalog entry, found " ++ found) }
  | .forbiddenFields names allowed =>
    { kind := .usage
      message := some ("fields not allowed when creating a dataset: " ++ ", ".intercalate names)
      hint := some ("allowed fields: " ++ ", ".intercalate allowed) }
  | .unknownMode text =>
    { kind := .usage, message := some ("unknown mode " ++ Text.quoted text)
      hint := some "expected prod or dev" }
  | .invalidBaseUrl fault =>
    { kind := .usage, message := some "invalid catalog base url", causes := [fault.message] }
  | .wrongScheme =>
    { kind := .usage, message := some "catalog base url must use http or https scheme" }
  | .invalidTimeout fault =>
    { kind := .usage
      message := some "DATACAT_TIMEOUT_MS must be a whole number of milliseconds"
      causes := [fault.message] }
  | .nameRequired =>
    { kind := .usage, message := some "a name is required to create an entry" }
  | .requestFailed =>
    { kind := .io, message := some "request failed" }
  | .refused kind message hint =>
    { kind := kind, message := some message, hint := hint }
  | .unreadableResponse fault =>
    { kind := .io, message := some "failed to read response body", causes := [fault] }
  | .invalidResponse fault =>
    { kind := .malformed, message := some "invalid response json", causes := [fault.message] }
  | .invalidArguments fault =>
    { kind := .usage, message := some fault.message
      hint := some "run `datacat --help` for usage" }
  | .invalidAssignment option text =>
    { kind := .usage
      message := some (option ++ " expects KEY=VALUE, got " ++ Text.quoted text) }
  | .unreadableFile name fault =>
    { kind := fault.kind, message := some ("failed to read " ++ name), causes := [fault.message] }
  | .unreadableInput =>
    { kind := .io, message := some "failed to read stdin", causes := [FileFault.notText.message] }
  | .other report => report

/-- A cause with the field and the path that it concerns. -/
structure Error where
  cause : Cause
  field : Option String := none
  path : Option String := none

namespace Error

def report (e : Error) : Report :=
  e.cause.report

def kind (e : Error) : ErrorKind :=
  e.report.kind

def atField (e : Error) (field : String) : Error :=
  { e with field := some field }

/-- The error, said to concern a field if it names none yet. -/
def orField (e : Error) (field : String) : Error :=
  if e.field.isSome then e else e.atField field

/-- The error, said to concern a path of the catalog. -/
def atPath (e : Error) (path : String) : Error :=
  { e with path := some path }

/-- The kind, the message, the field and the path in one line. -/
def display (e : Error) : String :=
  e.kind.name
    ++ (match e.report.message with | some message => ": " ++ message | none => "")
    ++ (match e.field with | some field => " (field: " ++ field ++ ")" | none => "")
    ++ (match e.path with | some path => " (path: " ++ path ++ ")" | none => "")

@[simp] theorem kind_atField (e : Error) (field : String) : (e.atField field).kind = e.kind := rfl

@[simp] theorem kind_atPath (e : Error) (path : String) : (e.atPath path).kind = e.kind := rfl

end Error

def Cause.error (cause : Cause) : Error :=
  { cause := cause }

def Cause.atField (cause : Cause) (field : String) : Error :=
  { cause := cause, field := some field }

end DataCatalog
