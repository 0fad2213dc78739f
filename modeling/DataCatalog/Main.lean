import DataCatalog.CommandLine.Run

/-!
# The program

The outermost layer: it looks up the variables, reads the document that a run asks for, and prints
what the run leaves behind.  No transport is linked in, so the service cannot be reached from
here, and no tables of Unicode are, so domain names have to be plain.
-/

namespace DataCatalog.CommandLine

/-- The number of a failure, which the system gives with either sign. -/
def failureNumber (code : UInt32) : UInt32 :=
  min code (0 - code)

/-- What a failure to read means. -/
def readingFault : IO.Error → FileFault
  | .noFileOrDirectory _ _ _ => .missing
  | .permissionDenied _ _ _ => .denied
  | .inappropriateType _ code details =>
    if failureNumber code = 20 then .notDirectory
    else if failureNumber code = 21 then .isDirectory
    else .other details
  | failure => .other (toString failure)

def textOfBytes (bytes : ByteArray) : Except FileFault String :=
  match String.fromUTF8? bytes with
  | some text => .ok text
  | none => .error .notText

def readTextFile (name : String) : IO (Except FileFault String) := do
  try
    return textOfBytes (← IO.FS.readBinFile name)
  catch failure =>
    return .error (readingFault failure)

/-- What a run with these arguments can see. -/
def surroundings (arguments : List String) : IO Surroundings := do
  let values ← Environment.names.mapM fun name => return (name, ← IO.getEnv name)
  let environment := Environment.ofLookup fun name => (Entries.get? name values).join
  let alone : Surroundings :=
    { environment := environment
      file := fun _ => .error .missing
      input := none
      service := fun _ => .unreachable }
  match Source.ofArguments arguments with
  | .nothing => return alone
  | .input =>
    let bytes ← (← IO.getStdin).readBinToEnd
    return { alone with input := String.fromUTF8? bytes }
  | .file name =>
    let content ← readTextFile name
    return { alone with file := fun _ => content }

end DataCatalog.CommandLine

open DataCatalog.CommandLine in
def main (arguments : List String) : IO UInt32 := do
  let outcome := run (← surroundings arguments) arguments
  (← IO.getStdout).putStr outcome.printed
  if let some line := outcome.error then
    (← IO.getStderr).putStr (line ++ "\n")
  return outcome.exit.toUInt32
