import DataCatalog.Client.Basic
import DataCatalog.CommandLine.Assignment
import DataCatalog.CommandLine.Command

/-!
# Running a command

A run either prints its results, one document a line, and ends with exit code zero, or it prints
one line about an error and ends with the exit code of the kind of the error.
-/

namespace DataCatalog.CommandLine

/-- What a run can see: variables, files, the standard input if it is text, the service, and the
conversion of domain names. -/
structure Surroundings where
  environment : Environment
  file : String → Except FileFault String
  input : Option String
  service : Service
  toAscii : Url.ToAscii := .known []

/-- Where a run takes its document from, if it reads one. -/
inductive Source where
  | nothing
  | input
  | file (name : String)

/-- Where a run with these arguments takes its document from. -/
def Source.ofArguments (arguments : List String) : Source :=
  match Invocation.ofArguments arguments with
  | .ok invocation =>
    match invocation.command with
    | .unpack (some name) _ => .file name
    | .unpack none _ => .input
    | _ => .nothing
  | .error _ => .nothing

/-- What a run leaves behind. -/
structure Outcome where
  exit : Nat
  printed : String
  error : Option String
  received : List Request

def versionText : String :=
  "datacat 0.1.0"

def helpText : String :=
  "Query and edit a remote data catalog"

def textMember (key : String) (value : Option String) : List (String × Json) :=
  match value with
  | some text => [(key, .string text)]
  | none => []

def errorDocument (e : Error) : Json :=
  let report := e.report
  let causes : List (String × Json) :=
    if report.causes.isEmpty then [] else [("causes", .array (report.causes.map .string))]
  .object [("error", .object
    ([("kind", .string report.kind.name),
      ("message", .string (report.message.getD "unexpected failure"))]
      ++ textMember "hint" report.hint ++ textMember "field" e.field ++ textMember "path" e.path
      ++ causes))]

/-- The results of a command: the lines that are printed before an error, if one occurs. -/
structure Progression where
  lines : List String := []
  error : Option Error := none
  received : List Request := []

namespace Progression

def failed (e : Error) : Progression where
  error := some e

/-- Prints results one after the other, up to the first one that cannot be written. -/
def printAll : List (Except Error Json) → Progression
  | [] => {}
  | .error e :: _ => failed e
  | .ok value :: rest =>
    let more := printAll rest
    { more with lines := value.render :: more.lines }

/-- Goes on with a result, if there is one. -/
def ofResult {α : Type} (result : Except Error α) (next : α → Progression) : Progression :=
  match result with
  | .error e => failed e
  | .ok value => next value

/-- Prints what an exchange results in. -/
def ofExchange {α : Type} (exchange : Exchange α) (print : α → Progression) : Progression :=
  { ofResult exchange.result print with received := exchange.received }

end Progression

def printEntity (e : Entity) : Progression :=
  Progression.printAll [({ } : Codec).encodeEntity e]

def describedContainer (name : String) (metadata fields : List String) :
    Except Error Container := do
  let metadata ← metadataOfAssignments metadata
  let fields ← fieldsOfAssignments fields
  let named := (Record.empty.set .name name).set .metadata metadata
  .ok (fields.foldl (fun body (key, value) => body.withExtra key value) named)

/-- Sets a field if there is a value for it. -/
def setIfGiven (r : Record .dataset) (f : Field) (value : Option f.Value)
    (has : f ∈ Shape.dataset.fields := by decide) : Record .dataset :=
  match value with
  | some value => r.set f value has
  | none => r

def describedDataset (arguments : DatasetArguments) : Except Error Dataset := do
  let metadata ← metadataOfAssignments arguments.metadata
  let versionMetadata ← metadataOfAssignments arguments.versionMetadata
  let locations ← arguments.locations.mapM locationOfAssignment
  let named := ((Record.empty.set .name arguments.name).set .metadata metadata).set
    .versionMetadata versionMetadata
  let typed := setIfGiven named .dataType arguments.dataType
  let formatted := setIfGiven typed .fileFormat arguments.fileFormat
  let versioned := setIfGiven formatted .versionId arguments.versionId
  .ok { toRecord := versioned, locations := locations }

/-- The text of a file, or of the standard input. -/
def readDocument (surroundings : Surroundings) (file : Option String) : Except Error String :=
  match file with
  | some name =>
    (surroundings.file name).mapError fun fault => (Cause.unreadableFile name fault).error
  | none =>
    match surroundings.input with
    | some text => .ok text
    | none => .error Cause.unreadableInput.error

/-- Reads a document and prints it in the form in which it would be written. -/
def unpackDocument (surroundings : Surroundings) (file : Option String)
    (defaultKind : Option EntityKind) : Except Error Json := do
  let codec : Codec := { defaultKind := defaultKind }
  let text ← readDocument surroundings file
  let decoded ← codec.unpack text
  codec.encode decoded

/-- The client of the service that the options name. -/
def connect (surroundings : Surroundings) (invocation : Invocation) : Except Error Client :=
  (Config.resolve invocation.url invocation.experiment invocation.mode
    surroundings.environment surroundings.toAscii).map fun config => { config := config }

/-- Runs a command against the service that the options name. -/
def perform (surroundings : Surroundings) (invocation : Invocation) : Progression :=
  let client := connect surroundings invocation
  let service := surroundings.service
  match invocation.command with
  | .search target options =>
    .ofResult client fun client =>
      .ofExchange (client.search service target options) fun entities =>
        .printAll (entities.map ({ } : Codec).encodeEntity)
  | .lookup path view =>
    .ofResult client fun client => .ofExchange (client.lookup service path view) printEntity
  | .createContainer parent name kind metadata fields =>
    .ofResult (describedContainer name metadata fields) fun body =>
      .ofResult client fun client =>
        .ofExchange (client.createContainer service parent body kind) printEntity
  | .createDataset parent arguments =>
    .ofResult (describedDataset arguments) fun body =>
      .ofResult client fun client =>
        .ofExchange (client.createDataset service parent body) printEntity
  | .remove path removal =>
    .ofResult client fun client =>
      let exchange :=
        match removal with
        | .container kind => client.deleteContainer service path kind
        | .dataset => client.deleteDataset service path
      .ofExchange exchange fun _ => .printAll [.ok (.object [("deleted", .string path)])]
  | .unpack file defaultKind => .printAll [unpackDocument surroundings file defaultKind]

/-- The text of lines, each with its end. -/
def unlines (lines : List String) : String :=
  String.join (lines.map (· ++ "\n"))

def Progression.outcome (progression : Progression) : Outcome where
  exit := match progression.error with | some e => e.kind.exitCode | none => 0
  printed := unlines progression.lines
  error := progression.error.map fun e => (errorDocument e).render
  received := progression.received

def run (surroundings : Surroundings) (arguments : List String) : Outcome :=
  match Invocation.ofArguments arguments with
  | .ok invocation => (perform surroundings invocation).outcome
  | .error .help => Progression.outcome { lines := [helpText] }
  | .error .version => Progression.outcome { lines := [versionText] }
  | .error (.fault fault) => (Progression.failed (Cause.invalidArguments fault).error).outcome

end DataCatalog.CommandLine
