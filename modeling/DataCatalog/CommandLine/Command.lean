import DataCatalog.Client.Endpoint
import DataCatalog.CommandLine.Options
import DataCatalog.Record.Entity

/-!
# Commands

The commands of the program with their options.  The options that say where the service is may stand
before and after the name of the command; what stands after it counts.
-/

namespace DataCatalog.CommandLine

/-- What is removed at a path. -/
inductive Removal where
  | container (kind : ContainerKind)
  | dataset

/-- The assignments and values of a new dataset. -/
structure DatasetArguments where
  name : String
  dataType : Option String
  fileFormat : Option String
  versionId : Option Int64
  metadata : List String
  versionMetadata : List String
  locations : List String

inductive Command where
  | search (target : String) (options : SearchOptions)
  | lookup (path : String) (view : View)
  | createContainer (parent name : String) (kind : ContainerKind) (metadata fields : List String)
  | createDataset (parent : String) (arguments : DatasetArguments)
  | remove (path : String) (removal : Removal)
  | unpack (file : Option String) (defaultKind : Option EntityKind)

/-- A command and the options that say where the service is. -/
structure Invocation where
  url : Option String
  experiment : Option String
  mode : Option String
  command : Command

def helpFlag : Parameter where
  name := "help"
  label := "--help"
  content := .help

def versionFlag : Parameter where
  name := "version"
  label := "--version"
  content := .version

/-- The options that may stand on both sides of the name of the command. -/
def commonOptions : List Parameter :=
  [.named "url" "URL", .named "experiment" "EXPERIMENT", .named "mode" "MODE", helpFlag]

def viewOptions : List Parameter :=
  [.named "version" "VERSION", .named "site" "SITE"]

/-- A positional argument that has to be given. -/
def operand (name : String) : Parameter where
  name := name
  label := name
  content := .text

def repeatable (p : Parameter) : Parameter :=
  { p with repeatable := true }

/-- A command: its name, what may follow it, and what it is for these values. -/
structure Subcommand where
  name : String
  grammar : Grammar
  command : Matches → Command

namespace Subcommand

def view (matched : Matches) : View where
  version := matched.text? "version"
  site := matched.text? "site"

def search : Subcommand where
  name := "search"
  grammar :=
    { options :=
        [.named "filter" "FILTER", repeatable (.named "sort" "SORT"),
          repeatable (.named "show" "SHOW"), .named "offset" "OFFSET" .unsigned,
          .named "max" "MAX" .unsigned] ++ viewOptions ++ commonOptions
      positionals := [operand "target"]
      required := ["target"] }
  command matched :=
    .search ((matched.text? "target").getD "")
      { filter := matched.text? "filter"
        sort := matched.texts "sort"
        display := matched.texts "show"
        offset := matched.unsigned? "offset"
        max := matched.unsigned? "max"
        view := view matched }

def lookup : Subcommand where
  name := "path"
  grammar :=
    { options := viewOptions ++ commonOptions
      positionals := [operand "path"]
      required := ["path"] }
  command matched := .lookup ((matched.text? "path").getD "") (view matched)

def createContainer : Subcommand where
  name := "mkdir"
  grammar :=
    { options :=
        [{ name := "group", label := "--group", content := .nothing },
          repeatable (.named "metadata" "KEY=VALUE"), repeatable (.named "field" "KEY=VALUE")]
          ++ commonOptions
      positionals := [operand "parent", operand "name"]
      required := ["parent", "name"] }
  command matched :=
    .createContainer ((matched.text? "parent").getD "") ((matched.text? "name").getD "")
      (if matched.has "group" then .group else .folder)
      (matched.texts "metadata") (matched.texts "field")

def createDataset : Subcommand where
  name := "mkds"
  grammar :=
    { options :=
        [.named "data-type" "DATA_TYPE", .named "file-format" "FILE_FORMAT",
          .named "version-id" "VERSION_ID" .signed, repeatable (.named "metadata" "KEY=VALUE"),
          repeatable (.named "version-metadata" "KEY=VALUE"),
          repeatable (.named "location" "SITE=RESOURCE")] ++ commonOptions
      positionals := [operand "parent", operand "name"]
      required := ["parent", "name"] }
  command matched :=
    .createDataset ((matched.text? "parent").getD "")
      { name := (matched.text? "name").getD ""
        dataType := matched.text? "data-type"
        fileFormat := matched.text? "file-format"
        versionId := matched.signed? "version-id"
        metadata := matched.texts "metadata"
        versionMetadata := matched.texts "version-metadata"
        locations := matched.texts "location" }

def remove : Subcommand where
  name := "rm"
  grammar :=
    { options :=
        .named "kind" "KIND" (.choice ["folder", "group", "dataset"]) :: commonOptions
      positionals := [operand "path"]
      required := ["path", "kind"] }
  command matched :=
    .remove ((matched.text? "path").getD "")
      (match matched.text? "kind" with
        | some "folder" => .container .folder
        | some "group" => .container .group
        | _ => .dataset)

def unpack : Subcommand where
  name := "unpack"
  grammar :=
    { options :=
        .named "default-type" "DEFAULT_TYPE" (.choice (EntityKind.all.map EntityKind.tag))
          :: commonOptions
      positionals := [{ name := "file", label := "[FILE]", content := .fileName }]
      required := [] }
  command matched :=
    .unpack (matched.text? "file") ((matched.text? "default-type").bind EntityKind.ofName?)

def all : List Subcommand :=
  [search, lookup, createContainer, createDataset, remove, unpack]

def find? (name : String) : Option Subcommand :=
  all.find? (·.name = name)

end Subcommand

/-- What may stand before the name of the command. -/
def leading : Grammar where
  options := versionFlag :: commonOptions
  positionals := []
  required := []

def helpName : String :=
  "help"

/-- What is wrong with an argument where the name of a command should stand. -/
def notACommand (separated : Bool) (argument : String) : Fault :=
  if separated && (argument = helpName || (Subcommand.find? argument).isSome) then
    .unexpectedArgument argument
  else .unknownCommand argument

/-- Help on a command may be asked for by its name. -/
def matchHelp : List String → Stop
  | [] => .help
  | name :: rest =>
    if name = helpName ∨ (Subcommand.find? name).isSome then
      match rest with
      | [] => .help
      | next :: _ => .fault (.unknownCommand next)
    else .fault (.unknownCommand name)

/-- The end of the arguments without the name of a command. -/
def unfinished (progress : Progress) : Except Stop Invocation := do
  let progress ← progress.settle
  .error (.fault (if progress.matched.isEmpty then .noArguments else .noCommand))

/-- The command, with the options before and after its name. -/
def invocation (before after : Matches) (command : Command) : Invocation :=
  let value name := after.text? name <|> before.text? name
  { url := value "url", experiment := value "experiment", mode := value "mode", command := command }

/-- Matches the arguments up to the name of the command, and those behind it. -/
def matchCommand (progress : Progress) : List String → Except Stop Invocation
  | [] => unfinished progress
  | argument :: rest =>
    match Form.of argument with
    | .separator =>
      match rest with
      | [] => unfinished progress
      | next :: _ => .error (.fault (notACommand true next))
    | .long name attached => do matchCommand (← leading.long progress name attached) rest
    | .short flag => do matchCommand (← leading.short progress flag) rest
    | .plain =>
      match progress.awaiting with
      | some p => matchCommand { progress with waiting := some (p, some argument) } rest
      | none =>
        match Subcommand.find? argument with
        | some subcommand => do
          let after ← subcommand.grammar.matches? rest
          let before ← progress.settle
          .ok (invocation before.matched after (subcommand.command after))
        | none =>
          .error
            (if argument = helpName then matchHelp rest
              else .fault (notACommand false argument))

def Invocation.ofArguments (arguments : List String) : Except Stop Invocation :=
  matchCommand {} arguments

end DataCatalog.CommandLine
