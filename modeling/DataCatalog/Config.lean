import DataCatalog.Error
import DataCatalog.Text.Blank
import DataCatalog.Url.Parser

/-!
# Where the service is

The base URL of the service comes from an argument, or else from the environment, or else it is
made from the name of an experiment and a mode, each of which comes from an argument, the
environment or a default.  It is brought to a form without query and fragment whose path does not
end with a slash.  Where no conversion of domain names is given, only plain names are accepted.
-/

namespace DataCatalog

/-- Which of the two installations of the service is meant. -/
inductive Mode where
  | prod
  | dev
  deriving DecidableEq

namespace Mode

/-- Reads a mode in letters of any case; blank text is the default. -/
def parse (text : String) : Except Error Mode :=
  let name := String.ofList ((Text.trim text.toList).map Char.toLower)
  if name = "prod" ∨ name = "" then .ok .prod
  else if name = "dev" then .ok .dev
  else .error (Cause.unknownMode name).error

/-- The first segment of the paths of an installation. -/
def application : Mode → String
  | .prod => "datacat"
  | .dev => "datacat-dev"

end Mode

/-- The variables of the environment that are looked at. -/
structure Environment where
  url : Option String := none
  experiment : Option String := none
  mode : Option String := none
  timeout : Option String := none

namespace Environment

def names : List String :=
  ["DATACAT_URL", "DATACAT_EXPERIMENT", "DATACAT_MODE", "DATACAT_TIMEOUT_MS"]

/-- The environment in which variables have these values. -/
def ofLookup (lookup : String → Option String) : Environment where
  url := lookup "DATACAT_URL"
  experiment := lookup "DATACAT_EXPERIMENT"
  mode := lookup "DATACAT_MODE"
  timeout := lookup "DATACAT_TIMEOUT_MS"

end Environment

/-- Where the service is and how long to wait for it. -/
structure Config where
  baseUrl : Url
  timeout : UInt64

namespace Config

def server : String :=
  "https://srs.slac.stanford.edu"

def defaultExperiment : String :=
  "lsst"

/-- Thirty seconds, in milliseconds. -/
def defaultTimeout : UInt64 :=
  30000

/-- The root of the service for an experiment. -/
def serviceRoot (experiment : String) (mode : Mode) : String :=
  server ++ "/" ++ mode.application ++ "/" ++ experiment ++ "/r"

def isServed (scheme : String) : Bool :=
  scheme == "http" || scheme == "https"

/-- Reads a base URL and brings it to its normal form. -/
def parseBaseUrl (text : String) (toAscii : Url.ToAscii := .known []) : Except Error Url :=
  match Url.parse toAscii text with
  | .error fault => .error (Cause.invalidBaseUrl fault).error
  | .ok (.other _) => .error Cause.wrongScheme.error
  | .ok (.url url) =>
    if isServed url.scheme then
      .ok { url with path := Url.trimPath url.path, query := none, fragment := none }
    else .error Cause.wrongScheme.error

def ofUrl (text : String) (toAscii : Url.ToAscii := .known []) : Except Error Config :=
  (parseBaseUrl text toAscii).map fun url => ⟨url, defaultTimeout⟩

/-- The text of the base URL: as given, or that of an experiment and a mode. -/
def baseText (url experiment mode : Option String) (env : Environment) : Except Error String :=
  match url <|> env.url with
  | some text => .ok text
  | none => do
    let mode ←
      match mode <|> env.mode with
      | some text => Mode.parse text
      | none => .ok .prod
    .ok (serviceRoot ((experiment <|> env.experiment).getD defaultExperiment) mode)

/-- The configuration from explicit values, the environment and defaults, in this order. -/
def resolve (url experiment mode : Option String) (env : Environment)
    (toAscii : Url.ToAscii := .known []) : Except Error Config := do
  let config ← ofUrl (← baseText url experiment mode env) toAscii
  match env.timeout with
  | none => .ok config
  | some text =>
    match Text.parseUInt64 (Text.trim text.toList) with
    | .ok timeout => .ok { config with timeout := timeout }
    | .error fault => .error (Cause.invalidTimeout fault).error

end Config

end DataCatalog
