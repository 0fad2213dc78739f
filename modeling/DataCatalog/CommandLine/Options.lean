import DataCatalog.CommandLine.Fault
import DataCatalog.OrderedMap

/-!
# Matching arguments

A grammar lists the options and the positional arguments that may occur.  Arguments are matched
from left to right.  A value waits until the next match before it is checked, so that an argument
that fits nowhere is reported before a bad value that stands right in front of it.
-/

namespace DataCatalog.CommandLine

/-- What an option or a positional argument takes. -/
inductive Content where
  | nothing
  | text
  | fileName
  | unsigned
  | signed
  | choice (names : List String)
  | help
  | version

/-- An option, by its name without dashes, or a positional argument. -/
structure Parameter where
  name : String
  label : String
  content : Content
  repeatable : Bool := false

inductive Value where
  | present
  | text (value : String)
  | unsigned (value : UInt64)
  | signed (value : Int64)

structure Grammar where
  options : List Parameter
  positionals : List Parameter
  required : List String

/-- Why matching stops: help or the version is asked for, or there is a fault. -/
inductive Stop where
  | help
  | version
  | fault (fault : Fault)

/-- The values that were matched, by name and in order. -/
abbrev Matches : Type :=
  List (String × Value)

/-- What has been matched so far.  `waiting` is the last parameter with its value, if it has one
yet; `position` counts the positional arguments. -/
structure Progress where
  matched : Matches := []
  waiting : Option (Parameter × Option String) := none
  position : Nat := 0

def Parameter.named (name value : String) (content : Content := .text) : Parameter where
  name := name
  label := "--" ++ name ++ " <" ++ value ++ ">"
  content := content

/-- Checks the text of a value. -/
def Parameter.check (p : Parameter) (text : String) : Except Stop Value :=
  let invalid (reason : Text.IntegerError) : Stop := .fault (.invalidNumber text p.label reason)
  match p.content with
  | .unsigned => ((Text.parseUInt64 text.toList).mapError invalid).map .unsigned
  | .signed => ((Text.parseInt64 text.toList).mapError invalid).map .signed
  | .choice names =>
    if names.contains text then .ok (.text text)
    else if text = "" then .error (.fault (.missingValue p.label))
    else .error (.fault (.invalidChoice text p.label))
  | .fileName => if text = "" then .error (.fault (.missingValue p.label)) else .ok (.text text)
  | _ => .ok (.text text)

namespace Progress

/-- Adds a value of a parameter, which occurs once unless it is repeatable. -/
def add (progress : Progress) (p : Parameter) (value : Except Stop Value) :
    Except Stop Progress := do
  if !p.repeatable && (Entries.get? p.name progress.matched).isSome then
    .error (.fault (.repeatedOption p.label))
  else
    let value ← value
    .ok { progress with matched := progress.matched ++ [(p.name, value)] }

/-- Checks and adds the value that is waiting. -/
def settle (progress : Progress) : Except Stop Progress :=
  match progress.waiting with
  | none => .ok progress
  | some (p, none) => .error (.fault (.missingValue p.label))
  | some (p, some text) => { progress with waiting := none }.add p (p.check text)

/-- The parameter that takes the next argument as its value. -/
def awaiting (progress : Progress) : Option Parameter :=
  match progress.waiting with
  | some (p, none) => some p
  | _ => none

/-- Matches an option, with the value that is attached to it by an equals sign. -/
def option (progress : Progress) (p : Parameter) (attached : Option String) :
    Except Stop Progress :=
  match p.content, attached with
  | .nothing, some value => .error (.fault (.unexpectedValue value p.label))
  | .help, some value => .error (.fault (.unexpectedValue value p.label))
  | .version, some value => .error (.fault (.unexpectedValue value p.label))
  | .nothing, none => do (← progress.settle).add p (.ok .present)
  | .help, none => do
    let _ ← progress.settle
    .error .help
  | .version, none => do
    let _ ← progress.settle
    .error .version
  | _, some value => do (← progress.settle).add p (p.check value)
  | _, none => do .ok { ← progress.settle with waiting := some (p, none) }

def positional (grammar : Grammar) (progress : Progress) (argument : String) :
    Except Stop Progress :=
  match grammar.positionals[progress.position]? with
  | none => .error (.fault (.unexpectedArgument argument))
  | some p => do
    let progress ← progress.settle
    .ok { progress with waiting := some (p, some argument), position := progress.position + 1 }

end Progress

/-- The name of an option and the value attached to it. -/
def splitAttached (s : List Char) : String × Option String :=
  match s.dropWhile (· != '=') with
  | [] => (String.ofList s, none)
  | _ :: value => (String.ofList (s.takeWhile (· != '=')), some (String.ofList value))

inductive Form where
  | separator
  | long (name : String) (attached : Option String)
  | short (flag : Char)
  | plain

def Form.of (argument : String) : Form :=
  match argument.toList with
  | ['-', '-'] => .separator
  | '-' :: '-' :: rest => .long (splitAttached rest).1 (splitAttached rest).2
  | '-' :: flag :: _ => .short flag
  | _ => .plain

namespace Grammar

def find? (grammar : Grammar) (name : String) : Option Parameter :=
  grammar.options.find? (·.name = name)

def long (grammar : Grammar) (progress : Progress) (name : String) (attached : Option String) :
    Except Stop Progress :=
  match grammar.find? name with
  | some p => progress.option p attached
  | none => .error (.fault (.unexpectedArgument ("--" ++ name)))

/-- Matches a short flag: help, and the version where it may be asked for. -/
def short (grammar : Grammar) (progress : Progress) (flag : Char) : Except Stop Progress :=
  let wanted : Option Parameter :=
    grammar.options.find? fun p =>
      match p.content with
      | .help => flag = 'h'
      | .version => flag = 'V'
      | _ => false
  match wanted with
  | some p => progress.option p none
  | none => .error (.fault (.unexpectedArgument (String.ofList ['-', flag])))

/-- Matches the arguments behind a separator, all of which are positional. -/
def matchPlain (grammar : Grammar) (progress : Progress) : List String → Except Stop Progress
  | [] => progress.settle
  | argument :: rest => do grammar.matchPlain (← progress.positional grammar argument) rest

def matchAll (grammar : Grammar) (progress : Progress) : List String → Except Stop Progress
  | [] => progress.settle
  | argument :: rest =>
    match Form.of argument with
    | .separator => grammar.matchPlain progress rest
    | .long name attached => do grammar.matchAll (← grammar.long progress name attached) rest
    | .short flag => do grammar.matchAll (← grammar.short progress flag) rest
    | .plain =>
      match progress.awaiting with
      | some p => grammar.matchAll { progress with waiting := some (p, some argument) } rest
      | none => do grammar.matchAll (← progress.positional grammar argument) rest

/-- Matches arguments, of which none that is required may be missing. -/
def matches? (grammar : Grammar) (arguments : List String) : Except Stop Matches := do
  let progress ← grammar.matchAll {} arguments
  if grammar.required.all fun name => (Entries.get? name progress.matched).isSome then
    .ok progress.matched
  else .error (.fault .missingArguments)

end Grammar

namespace Matches

def text? (matched : Matches) (name : String) : Option String :=
  match Entries.get? name matched with
  | some (.text value) => some value
  | _ => none

def texts (matched : Matches) (name : String) : List String :=
  matched.filterMap fun (key, value) =>
    match value with
    | .text value => if key = name then some value else none
    | _ => none

def unsigned? (matched : Matches) (name : String) : Option UInt64 :=
  match Entries.get? name matched with
  | some (.unsigned value) => some value
  | _ => none

def signed? (matched : Matches) (name : String) : Option Int64 :=
  match Entries.get? name matched with
  | some (.signed value) => some value
  | _ => none

def has (matched : Matches) (name : String) : Bool :=
  (Entries.get? name matched).isSome

end Matches

end DataCatalog.CommandLine
