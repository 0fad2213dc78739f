import DataCatalog.Binary64.Numeral
import DataCatalog.Error
import DataCatalog.Json.Reader
import DataCatalog.Record.Entity
import DataCatalog.Text.Blank

/-!
# Assignments

Metadata, extra fields and locations are given as `KEY=VALUE`.  The key stands before the first
equals sign without the blanks around it and must not be blank; the value is all that follows.
-/

namespace DataCatalog.CommandLine

/-- The key and the value of an assignment. -/
def splitAssignment (option text : String) : Except Error (String × String) :=
  let s := text.toList
  let key := Text.trim (s.takeWhile (· != '='))
  match s.dropWhile (· != '=') with
  | _ :: value =>
    if key = [] then .error (Cause.invalidAssignment option text).error
    else .ok (String.ofList key, String.ofList value)
  | [] => .error (Cause.invalidAssignment option text).error

/-- A whole number, else a finite double, else a text. -/
def scalarOfText (text : String) : Scalar :=
  match Text.parseInt64 text.toList with
  | .ok n => .integer n
  | .error _ =>
    match Binary64.parse? text.toList with
    | some x => if x.isFinite then .decimal x else .text text
    | none => .text text

def metadataOfAssignments (assignments : List String) : Except Error Metadata :=
  (assignments.mapM fun text =>
    (splitAssignment "--metadata" text).map fun (key, value) => (key, scalarOfText value)).map
      .ofList

/-- A JSON document, or else the text itself. -/
def jsonOfText (text : String) : Json :=
  match Json.parse text with
  | .ok value => value
  | .error _ => .string text

def fieldsOfAssignments (assignments : List String) : Except Error (List (String × Json)) :=
  assignments.mapM fun text =>
    (splitAssignment "--field" text).map fun (key, value) => (key, jsonOfText value)

/-- The location of an assignment of a resource to a site. -/
def locationOfAssignment (text : String) : Except Error Location :=
  (splitAssignment "--location" text).map fun (site, resource) =>
    (Record.empty.set .site site).set .resource resource

end DataCatalog.CommandLine
