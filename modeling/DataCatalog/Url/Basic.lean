import DataCatalog.Text.Integer
import DataCatalog.Url.Host

/-!
# Web addresses

A URL whose parts are kept in their written form.  The path is a list of segments, each written
after a slash.  A segment `.` stands for the place itself and `..` for the place above; both are
resolved when they are added, so that no path ever holds one.
-/

namespace DataCatalog

structure Url where
  scheme : String
  userInfo : String
  host : String
  port : Option Nat
  path : List String
  query : Option String
  fragment : Option String
  deriving DecidableEq

namespace Url

def writePath (path : List String) : String :=
  String.join (path.map ("/" ++ ·))

def pathText (url : Url) : String :=
  writePath url.path

/-- The path and the query, which a request names. -/
def target (url : Url) : String :=
  url.pathText ++ (match url.query with | some query => "?" ++ query | none => "")

/-- The scheme, the user information and the address of the host. -/
def origin (url : Url) : String :=
  url.scheme ++ "://" ++ (if url.userInfo = "" then "" else url.userInfo ++ "@") ++ url.host
    ++ (match url.port with
      | some port => ":" ++ String.ofList (Text.writeInt port)
      | none => "")

def text (url : Url) : String :=
  url.origin ++ url.target
    ++ (match url.fragment with | some fragment => "#" ++ fragment | none => "")

/-- Is the segment `.`, plain or escaped? -/
def isSingleDot (segment : List Char) : Bool :=
  [".".toList, "%2e".toList].contains (segment.map Char.toLower)

/-- Is the segment `..`, plain or escaped? -/
def isDoubleDot (segment : List Char) : Bool :=
  ["..".toList, "%2e%2e".toList, ".%2e".toList, "%2e.".toList].contains (segment.map Char.toLower)

/-- Is the text a drive letter, as paths of files start with? -/
def isDriveLetter : List Char → Bool
  | [letter, mark] => letter.isAlpha && (mark == ':' || mark == '|')
  | _ => false

/-- The path to the place above.  There is none above the root or above a drive, where the path
stays. -/
def parentPath (path : List String) : List String :=
  match path.getLast? with
  | some segment => if isDriveLetter segment.toList then path else path.dropLast
  | none => []

/-- Adds a segment to a path.  A dot segment at the end leaves an empty segment. -/
def addSegment (path : List String) (last : Bool) (segment : List Char) : List String :=
  if isDoubleDot segment then parentPath path ++ (if last then [""] else [])
  else if isSingleDot segment then path ++ (if last then [""] else [])
  else path ++ [String.ofList segment]

def addSegments (path : List String) : List (List Char) → List String
  | [] => path
  | [segment] => addSegment path true segment
  | segment :: rest => addSegments (addSegment path false segment) rest

/-- Tabs and line ends do not count in a URL. -/
def isIgnored (c : Char) : Bool :=
  c == '\t' || c == '\n' || c == '\r'

/-- Appends a plain text as one segment.  A text that is a dot segment is left out.  One that
becomes a dot segment when ignored characters are removed acts as such; an empty path makes room
for the first segment. -/
def appendSegment (path : List String) (segment : List Char) : List String :=
  if segment = ['.'] ∨ segment = ['.', '.'] then path
  else
    addSegment (if path = [""] then [] else path) true
      (encode segmentSet (segment.filter (!isIgnored ·)))

/-- The path without an empty segment at its end, unless that is all there is. -/
def popEmpty (path : List String) : List String :=
  if path ≠ [""] ∧ path.getLast? = some "" then path.dropLast else path

/-- The path without the empty segments at its end; the root remains. -/
def trimPath (path : List String) : List String :=
  match (path.reverse.dropWhile (· == "")).reverse with
  | [] => [""]
  | trimmed => trimmed

/-- The URL with more pairs at the end of its query, if there are any. -/
def appendPairs (url : Url) (pairs : List (String × String)) : Url :=
  match pairs, url.query with
  | [], none => url
  | pairs, none => { url with query := some (String.ofList (encodeForm pairs)) }
  | [], some "" => { url with query := none }
  | [], some _ => url
  | pairs, some "" => { url with query := some (String.ofList (encodeForm pairs)) }
  | pairs, some query =>
    { url with query := some (query ++ "&" ++ String.ofList (encodeForm pairs)) }

end Url

end DataCatalog
