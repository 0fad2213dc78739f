import DataCatalog.Error
import DataCatalog.Json.Reader
import DataCatalog.Json.Skim
import DataCatalog.Text.Blank

/-!
# Replies of the service

A reply below status 400 holds a document; blank content stands for null.  A reply from status 400
on is a refusal, whose kind follows from the status alone and whose wording comes from a document
that the service may send along.  A body may break off or be too long to be read; a refusal is then
one without a remark.
-/

namespace DataCatalog

/-- The body of a reply: its text, or what keeps it from being read. -/
inductive Body where
  | text (content : String)
  | broken (fault : String)
  deriving DecidableEq

structure Reply where
  status : Nat
  body : Body
  deriving DecidableEq

/-- What becomes of a request: it is answered, or not answered after it came in, or it never comes
in. -/
inductive Outcome where
  | reply (content : Reply)
  | hungUp
  | unreachable
  deriving DecidableEq

/-- What the service says about a refusal. -/
structure Remark where
  message : Option String
  type : Option String
  cause : Option String
  deriving DecidableEq

namespace Remark

def readOptional : Json.Reader (Option String) := fun s =>
  match Json.skipSpace s with
  | 'n' :: rest => (Json.literal ['u', 'l', 'l'] rest).map (none, ·)
  | '"' :: rest => (Json.readString rest).map fun (text, rest) => (some text, rest)
  | _ => .error .expectedValue

/-- The members that count. -/
def known : List String :=
  ["message", "type", "cause"]

/-- Reads the value of a member: that of an unknown one is passed over. -/
def readContent (key : String) : Json.Reader (Option (Option String)) := fun s =>
  if known.contains key then (readOptional s).map fun (text, rest) => (some text, rest)
  else (Json.skim s).map fun (_, rest) => (none, rest)

/-- The remark that the members make; a member that counts may not be repeated. -/
def ofMembers? (members : List (String × Option (Option String))) : Option Remark :=
  if known.all fun key => (Entries.keys members).count key ≤ 1 then
    let value key := ((Entries.get? key members).join).join
    some ⟨value "message", value "type", value "cause"⟩
  else none

/-- The remark of the items of an array: message, type and cause. -/
def ofItems? : List (Option String) → Option Remark
  | [message, type, cause] => some ⟨message, type, cause⟩
  | _ => none

/-- Reads a remark: an object, or an array of its three values. -/
def read (s : List Char) : Except Json.SyntaxError (Option Remark × List Char) :=
  match Json.skipSpace s with
  | '\x7b' :: rest =>
    (Json.readObject Json.readString readContent rest).map
      fun (members, rest) => (ofMembers? members, rest)
  | '[' :: rest =>
    (Json.readArray readOptional rest).map fun (items, rest) => (ofItems? items, rest)
  | _ => .error .expectedValue

/-- The remark that a text holds, if it holds nothing else. -/
def parse? (text : String) : Option Remark :=
  match read text.toList with
  | .ok (remark, rest) => if Json.skipSpace rest = [] then remark else none
  | .error _ => none

/-- The remark of a body; none if it cannot be read. -/
def ofBody? : Body → Option Remark
  | .text content => parse? content
  | .broken _ => none

/-- The wording of a refusal: its type and its message, as far as they are given. -/
def wording (status : Nat) (remark : Remark) : String :=
  match remark.type, remark.message with
  | some type, some message => type ++ ": " ++ message
  | none, some message => message
  | some type, none => type
  | none, none => "catalog error status " ++ String.ofList (Text.writeInt status)

end Remark

namespace Reply

def errorKind (status : Nat) : ErrorKind :=
  if status = 400 ∨ status = 413 ∨ status = 422 then .usage
  else if status = 401 ∨ status = 403 then .permission
  else if status = 404 then .notFound
  else if status = 409 then .alreadyExists
  else if 500 ≤ status ∧ status ≤ 599 then .internal
  else .io

/-- The body, which some statuses do not have. -/
def content (reply : Reply) : Body :=
  if reply.status = 204 ∨ reply.status = 304 then .text "" else reply.body

def refusal (reply : Reply) : Error :=
  let remark := (Remark.ofBody? reply.content).getD ⟨none, none, none⟩
  (Cause.refused (errorKind reply.status) (remark.wording reply.status) remark.cause).error

def document (reply : Reply) : Except Error Json :=
  match reply.content with
  | .broken fault => .error (Cause.unreadableResponse fault).error
  | .text content =>
    if Text.trim content.toList = [] then .ok .null
    else
      match Json.parse content with
      | .ok value => .ok value
      | .error fault => .error (Cause.invalidResponse fault).error

def isRefusal (reply : Reply) : Bool :=
  400 ≤ reply.status

end Reply

def Outcome.document : Outcome → Except Error Json
  | .reply r => if r.isRefusal then .error r.refusal else r.document
  | .hungUp => .error Cause.requestFailed.error
  | .unreachable => .error Cause.requestFailed.error

end DataCatalog
