import DataCatalog.Client.Endpoint
import DataCatalog.Client.Reply
import DataCatalog.Codec.Decode
import DataCatalog.Config

/-!
# The client of the service

Each operation checks its input, sends at most one request, and reads the reply.  The service is a
function from requests to what becomes of them; an exchange is the requests with their outcomes,
and the result that is made of them.
-/

namespace DataCatalog

inductive Method where
  | get
  | post
  | delete
  deriving DecidableEq

def Method.name : Method → String
  | .get => "GET"
  | .post => "POST"
  | .delete => "DELETE"

/-- A request; a body is a JSON text, and replies are accepted as such. -/
structure Request where
  method : Method
  url : Url
  body : Option String := none
  deriving DecidableEq

def Request.mediaType : String :=
  "application/json"

/-- What becomes of each request. -/
abbrev Service : Type :=
  Request → Outcome

/-- The requests of an operation with their outcomes, and its result. -/
structure Exchange (α : Type) where
  log : List (Request × Outcome)
  result : Except Error α

namespace Exchange

/-- The input is rejected before a request is sent. -/
def rejected {α : Type} (e : Error) : Exchange α where
  log := []
  result := .error e

def received {α : Type} (exchange : Exchange α) : List Request :=
  (exchange.log.filter (·.2 != .unreachable)).map Prod.fst

end Exchange

/-- A service that is known by its base URL, and how documents are read and written. -/
structure Client where
  config : Config
  codec : Codec := {}

namespace Client

variable {α : Type}

/-- Sends a request about a path and makes a result of the document that it brings. -/
def exchange (service : Service) (path : String) (request : Request)
    (result : Json → Except Error α) : Exchange α :=
  let outcome := service request
  { log := [(request, outcome)]
    result :=
      match outcome.document with
      | .error e => .error (e.atPath path)
      | .ok value => result value }

def endpointUrl (client : Client) (endpoint : String) (target : List Char) : Url :=
  DataCatalog.endpointUrl client.config.baseUrl endpoint target

def containerEndpoint : ContainerKind → String
  | .folder => "folders"
  | .group => "groups"

/-- The entry that a service has made; it need not have a tag. -/
def readCreated (client : Client) (kind : EntityKind) (value : Json) : Except Error Entity := do
  let decoded ← { client.codec with defaultKind := some kind }.decode value
  decoded.toEntity

/-- Only entries with a name are created. -/
def nameRequired (parent : String) : Error :=
  (Cause.nameRequired.atField Field.name.key).atPath parent

def search (client : Client) (service : Service) (target : String) (options : SearchOptions) :
    Exchange (List Entity) :=
  exchange service target { method := .get, url := searchUrl client.config.baseUrl target options }
    fun value => do
      let decoded ← client.codec.decode value
      decoded.toEntities

def lookup (client : Client) (service : Service) (path : String) (view : View) :
    Exchange Entity :=
  exchange service path { method := .get, url := client.endpointUrl "path" (view.decorate path) }
    fun value => do
      let decoded ← client.codec.decode value
      decoded.toEntity

def createContainer (client : Client) (service : Service) (parent : String) (body : Container)
    (kind : ContainerKind) : Exchange Entity :=
  match body.get? .name with
  | none => .rejected (nameRequired parent)
  | some _ =>
    match client.codec.encodeRecord body with
    | .error e => .rejected e
    | .ok members =>
      exchange service parent
        { method := .post
          url := client.endpointUrl (containerEndpoint kind) (normalizeTarget parent)
          body := some (Json.object members).render }
        (client.readCreated kind.entityKind)

def createDataset (client : Client) (service : Service) (parent : String) (body : Dataset) :
    Exchange Entity :=
  match body.get? .name with
  | none => .rejected (nameRequired parent)
  | some _ =>
    match body.createRequest client.codec with
    | .error e => .rejected e
    | .ok request =>
      exchange service parent
        { method := .post
          url := client.endpointUrl "datasets" (normalizeTarget parent)
          body := some request.render }
        (client.readCreated .dataset)

def deleteContainer (client : Client) (service : Service) (path : String) (kind : ContainerKind) :
    Exchange Unit :=
  exchange service path
    { method := .delete
      url := client.endpointUrl (containerEndpoint kind) (normalizeTarget path) }
    fun _ => .ok ()

def deleteDataset (client : Client) (service : Service) (path : String) : Exchange Unit :=
  exchange service path
    { method := .delete, url := client.endpointUrl "datasets" (normalizeTarget path) }
    fun _ => .ok ()

end Client

end DataCatalog
