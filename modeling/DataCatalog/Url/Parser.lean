import DataCatalog.Url.Basic

/-!
# Reading URLs

A URL is read from a text by its parts: scheme, user information, host, port, path, query,
fragment.  Only the schemes of the web have a host and a path of segments here; of other schemes it
is checked that they are URLs, and the scheme is kept.
-/

namespace DataCatalog.Url

/-- What a text denotes: a URL with a host, or a URL of another scheme. -/
inductive Parsed where
  | url (url : Url)
  | other (scheme : String)

def defaultPort? (scheme : String) : Option Nat :=
  if scheme = "http" ∨ scheme = "ws" then some 80
  else if scheme = "https" ∨ scheme = "wss" then some 443
  else if scheme = "ftp" then some 21
  else none

/-- The text without controls and spaces at its ends and without tabs and line ends. -/
def clean (s : List Char) : List Char :=
  let trimmed := ((s.dropWhile (·.toNat ≤ 0x20)).reverse.dropWhile (·.toNat ≤ 0x20)).reverse
  trimmed.filter (!isIgnored ·)

def isSchemeChar (c : Char) : Bool :=
  c.isAlphanum || c == '+' || c == '-' || c == '.'

/-- The scheme in lower case and the text after its colon. -/
def splitScheme? (s : List Char) : Option (String × List Char) :=
  match s, s.dropWhile isSchemeChar with
  | first :: _, ':' :: rest =>
    if first.isAlpha then
      some (String.ofList ((s.takeWhile isSchemeChar).map Char.toLower), rest)
    else none
  | _, _ => none

def isSlash (c : Char) : Bool :=
  c == '/' || c == '\\'

/-- The text up to the first character of the class, and the text from it on. -/
def splitBefore (p : Char → Bool) (s : List Char) : List Char × List Char :=
  (s.takeWhile (!p ·), s.dropWhile (!p ·))

/-- The texts before and after the last `@`. -/
def splitUserInfo? (s : List Char) : Option (List Char × List Char) :=
  match splitBefore (· == '@') s.reverse with
  | (_, []) => none
  | (host, _ :: userInfo) => some (userInfo.reverse, host.reverse)

/-- User information: a name and a password, an empty password being dropped. -/
def writeUserInfo (s : List Char) : List Char :=
  match splitBefore (· == ':') s with
  | (name, _ :: c :: password) =>
    encode userInfoSet name ++ ':' :: encode userInfoSet (c :: password)
  | (name, _) => encode userInfoSet name

/-- The host and the text after the first colon that stands outside brackets. -/
def splitPort : Bool → List Char → List Char × Option (List Char)
  | _, [] => ([], none)
  | bracketed, c :: rest =>
    if c = ':' ∧ !bracketed then ([], some rest)
    else
      let inside := if c = '[' then true else if c = ']' then false else bracketed
      let (host, port) := splitPort inside rest
      (c :: host, port)

/-- A port number that is not the usual one; an empty text is no port. -/
def parsePort (usual : Option Nat) (digits : List Char) : Except ParseError (Option Nat) :=
  let port := Nat.ofDigitChars 10 digits 0
  if digits.all Char.isDigit ∧ port ≤ 65535 then
    .ok (if digits = [] ∨ usual = some port then none else some port)
  else .error .invalidPort

structure Authority where
  userInfo : String
  host : String
  port : Option Nat

def parseAuthority (toAscii : ToAscii) (usual : Option Nat) (s : List Char) :
    Except ParseError Authority := do
  let (userInfo, address) := (splitUserInfo? s).getD ([], s)
  let (host, port) := splitPort false address
  if host = [] then throw .emptyHost
  let host ← parseHost toAscii host
  let port ← parsePort usual (port.getD [])
  return ⟨String.ofList (writeUserInfo userInfo), String.ofList host, port⟩

/-- Checks the authority of another scheme: its host may be empty if nothing else is said of it. -/
def checkAuthority (s : List Char) (more : Bool) : Except ParseError Unit := do
  let (userInfo, address) := (splitUserInfo? s).getD ([], s)
  if s.head? = some '@' ∧ userInfo = [] ∧ address = [] ∧ more then throw .emptyHost
  let (host, port) := splitPort false address
  let written ← parseOpaqueHost host
  if written = [] ∧ (port.isSome ∨ writeUserInfo userInfo ≠ []) then throw .emptyHost
  let _ ← parsePort none ((port.getD []).takeWhile (· != '\\'))

def checkFile (toAscii : ToAscii) (s : List Char) : Except ParseError Unit :=
  match s with
  | first :: second :: rest =>
    let host := (splitBefore (fun c => isSlash c || c == '?' || c == '#') rest).1
    if isSlash first && isSlash second && host != [] && !isDriveLetter host then
      (parseHost toAscii host).map fun _ => ()
    else .ok ()
  | _ => .ok ()

def checkOther (s : List Char) : Except ParseError Unit :=
  match s with
  | '/' :: '/' :: rest =>
    let (authority, more) := splitBefore (fun c => c == '/' || c == '?' || c == '#') rest
    checkAuthority authority (more != [])
  | _ => .ok ()

/-- The segments of a path; an empty path is the root. -/
def parsePath (s : List Char) : List String :=
  match s with
  | [] => [""]
  | _ :: rest => addSegments [] ((splitOn isSlash rest).map (encode pathSet))

def parseWeb (toAscii : ToAscii) (scheme : String) (s : List Char) : Except ParseError Url := do
  let (authority, rest) :=
    splitBefore (fun c => isSlash c || c == '?' || c == '#') (s.dropWhile isSlash)
  let authority ← parseAuthority toAscii (defaultPort? scheme) authority
  let (path, rest) := splitBefore (fun c => c == '?' || c == '#') rest
  let (query, rest) := splitBefore (· == '#') rest
  return {
    scheme := scheme
    userInfo := authority.userInfo
    host := authority.host
    port := authority.port
    path := parsePath path
    query := query.tail?.map fun query => String.ofList (encode querySet query)
    fragment := rest.tail?.map fun fragment => String.ofList (encode fragmentSet fragment) }

def parse (toAscii : ToAscii) (text : String) : Except ParseError Parsed := do
  match splitScheme? (clean text.toList) with
  | none => throw .relative
  | some (scheme, rest) =>
    if (defaultPort? scheme).isSome then return .url (← parseWeb toAscii scheme rest)
    if scheme = "file" then checkFile toAscii rest else checkOther rest
    return .other scheme

end DataCatalog.Url
