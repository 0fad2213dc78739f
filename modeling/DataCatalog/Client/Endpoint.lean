import DataCatalog.Text.Blank
import DataCatalog.Url.Basic

/-!
# Addresses of requests

A request goes to an endpoint below the base URL, followed by the segments of its target.  The
segments are added as plain texts, so that no character of a target gets a meaning in the URL.  A
view picks a version and a site by suffixes of the last segment; a search adds its options as the
query.
-/

namespace DataCatalog

/-- The version and the site of a dataset that are asked for; an empty text asks for none. -/
structure View where
  version : Option String := none
  site : Option String := none
  deriving DecidableEq

structure SearchOptions where
  filter : Option String := none
  sort : List String := []
  display : List String := []
  offset : Option UInt64 := none
  max : Option UInt64 := none
  view : View := {}

/-- The target without blanks around it, starting with a slash. -/
def normalizeTarget (target : String) : List Char :=
  match Text.trim target.toList with
  | '/' :: rest => '/' :: rest
  | trimmed => '/' :: trimmed

namespace View

/-- A suffix that names a part of the view, if the part is asked for. -/
def suffix (mark : List Char) (part : Option String) : List Char :=
  match part with
  | some text => if text = "" then [] else mark ++ text.toList
  | none => []

/-- The target with the suffixes of the view. -/
def decorate (view : View) (target : String) : List Char :=
  normalizeTarget target ++ suffix [';', 'v', '='] view.version ++ suffix [';', 's', '='] view.site

end View

/-- The segments of a target: the parts between slashes, slashes in front aside. -/
def targetSegments (target : List Char) : List (List Char) :=
  Url.splitOn (· == '/') (target.dropWhile (· == '/'))

/-- The URL of a target below an endpoint. -/
def endpointUrl (base : Url) (endpoint : String) (target : List Char) : Url :=
  let root := Url.appendSegment (Url.popEmpty base.path) (endpoint ++ ".json").toList
  { base with path := (targetSegments target).foldl Url.appendSegment root }

namespace SearchOptions

def pairs (options : SearchOptions) : List (String × String) :=
  let number (n : UInt64) : String := String.ofList (Text.writeInt n.toNat)
  (match options.filter with
    | some text => if text = "" then [] else [("filter", text)]
    | none => [])
  ++ options.sort.map ("sort", ·)
  ++ options.display.map ("show", ·)
  ++ options.offset.toList.map (fun n => ("offset", number n))
  ++ options.max.toList.map (fun n => ("max", number n))

end SearchOptions

def searchUrl (base : Url) (target : String) (options : SearchOptions) : Url :=
  (endpointUrl base "search" (options.view.decorate target)).appendPairs options.pairs

end DataCatalog
