import DataCatalog.Error
import DataCatalog.Url.Host

/-!
# Directories

A look at a file system in which the current directory holds some files and nothing else does.  A
path is walked part by part; a part below a file, or a slash after one, is a fault.
-/

namespace DataCatalog.CommandLine

abbrev Directory : Type :=
  List (String × String)

/-- Where a walk along a path has come. -/
inductive Place where
  | current
  | elsewhere
  | file (content : String)

namespace Directory

def step (files : Directory) (place : Place) (part : String) : Except FileFault Place :=
  match place with
  | .file _ => .error .notDirectory
  | .current =>
    if part = "" ∨ part = "." then .ok .current
    else if part = ".." then .ok .elsewhere
    else
      match Entries.get? part files with
      | some content => .ok (.file content)
      | none => .error .missing
  | .elsewhere => if part = "" ∨ part = "." ∨ part = ".." then .ok .elsewhere else .error .missing

def content (files : Directory) (path : String) : Except FileFault String := do
  let parts := (Url.splitOn (· == '/') path.toList).map String.ofList
  let start := if path.toList.head? = some '/' then Place.elsewhere else .current
  match ← parts.foldlM (step files) start with
  | .file content => .ok content
  | _ => .error .isDirectory

end Directory

end DataCatalog.CommandLine
