import DataCatalog.Text.Integer
import DataCatalog.Text.Line
import DataCatalog.Text.Terminal

/-!
# Faults of a command line
-/

namespace DataCatalog.CommandLine

/-- Why arguments are refused.  Options are named as the help names them, such as `--url <URL>`. -/
inductive Fault where
  | noArguments
  | noCommand
  | unknownCommand (name : String)
  | missingArguments
  | unexpectedArgument (argument : String)
  | missingValue (option : String)
  | invalidChoice (value option : String)
  | invalidNumber (value option : String) (reason : Text.IntegerError)
  | repeatedOption (option : String)
  | unexpectedValue (value option : String)
  deriving DecidableEq

namespace Fault

/-- The whole wording.  What the user wrote appears in it as a terminal shows it. -/
def wording : Fault → String
  | .noArguments => "Query and edit a remote data catalog"
  | .noCommand => "'datacat' requires a subcommand but one was not provided"
  | .unknownCommand name => "unrecognized subcommand '" ++ Text.shownText name ++ "'"
  | .missingArguments => "the following required arguments were not provided:"
  | .unexpectedArgument argument =>
    "unexpected argument '" ++ Text.shownText argument ++ "' found"
  | .missingValue option => "a value is required for '" ++ option ++ "' but none was supplied"
  | .invalidChoice value option =>
    "invalid value '" ++ Text.shownText value ++ "' for '" ++ option ++ "'"
  | .invalidNumber value option reason =>
    "invalid value '" ++ Text.shownText value ++ "' for '" ++ option ++ "': " ++ reason.message
  | .repeatedOption option => "the argument '" ++ option ++ "' cannot be used multiple times"
  | .unexpectedValue value option =>
    "unexpected value '" ++ Text.shownText value ++ "' for '" ++ option
      ++ "' found; no more were expected"

/-- The message is one line, also where the user wrote more. -/
def message (fault : Fault) : String :=
  String.ofList (Text.firstLine fault.wording.toList)

end Fault

end DataCatalog.CommandLine
