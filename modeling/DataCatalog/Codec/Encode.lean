import DataCatalog.Error
import DataCatalog.Record.Entity

/-!
# Writing records

Records become objects: the present named fields in the order of their shape, then the locations
of a dataset, then the extra fields.  An entry leads with its tag.  Metadata is an array of
triples of key, value and type.  Only metadata can fail to be written: a double may not be finite,
and the type table may have no tag for a scalar.
-/

namespace DataCatalog

/-- How documents are read and written: the tags of scalars, and what an untyped object is. -/
structure Codec where
  types : TypeTable := .standard
  defaultKind : Option EntityKind := none

inductive Decoded where
  | entity (value : Entity)
  | pair (key : String) (value : Scalar)
  | list (items : List Decoded)
  | json (value : Json)

namespace Codec

def encodeScalar : Scalar → Except Error Json
  | .integer n => .ok (.ofInt64 n)
  | .decimal (.finite x) => .ok (.number (.float x))
  | .decimal x => .error (Cause.nonFinite x).error
  | .text s => .ok (.string s)

/-- A metadata entry as an object of key, value and type. -/
def encodeTriple (c : Codec) (entry : String × Scalar) : Except Error Json :=
  match c.types.tagFor? entry.2.kind with
  | none => .error ((Cause.noTag entry.2.kind).atField entry.1)
  | some tag =>
    match encodeScalar entry.2 with
    | .error e => .error (e.atField entry.1)
    | .ok value =>
      .ok (.object [("key", .string entry.1), ("value", value), ("type", .string tag)])

def encodeMetadata (c : Codec) (m : Metadata) : Except Error Json :=
  (m.entries.mapM c.encodeTriple).map .array

def encodeValue (c : Codec) : (type : FieldType) → type.Value → Except Error Json
  | .integer, (n : Int64) => .ok (.ofInt64 n)
  | .text, (s : String) => .ok (.string s)
  | .metadata, (m : Metadata) => c.encodeMetadata m

variable {s : Shape}

/-- The members of the named fields that are present. -/
def encodeNamed (c : Codec) (r : Record s) : List Field → Except Error (List (String × Json))
  | [] => .ok []
  | f :: rest =>
    match r.get? f with
    | none => c.encodeNamed r rest
    | some value => do
      let encoded ← c.encodeValue f.type value
      let more ← c.encodeNamed r rest
      .ok ((f.key, encoded) :: more)

/-- The members of a record without locations. -/
def encodeRecord (c : Codec) (r : Record s) : Except Error (List (String × Json)) :=
  (c.encodeNamed r s.fields).map (· ++ r.extras.entries)

/-- The member of the locations of a dataset, if there are any. -/
def encodeLocations (c : Codec) (locations : List Location) :
    Except Error (List (String × Json)) :=
  if locations = [] then .ok []
  else do
    let items ← locations.mapM fun location => (c.encodeRecord location).map Json.object
    .ok [(Shape.locationsKey, .array items)]

def encodeDataset (c : Codec) (d : Dataset) : Except Error (List (String × Json)) := do
  let named ← c.encodeNamed d.toRecord Shape.dataset.fields
  let locations ← c.encodeLocations d.locations
  .ok (named ++ locations ++ d.extras.entries)

/-- The members of an entry without its tag. -/
def encodeBody (c : Codec) : Entity → Except Error (List (String × Json))
  | .dataset d => c.encodeDataset d
  | .folder r => c.encodeRecord r
  | .group r => c.encodeRecord r
  | .location r => c.encodeRecord r

def encodeEntity (c : Codec) (e : Entity) : Except Error Json :=
  (c.encodeBody e).map fun members =>
    .object ((Shape.tagKey, .string e.kind.tag) :: members)

def encodeEntities (c : Codec) (entities : List Entity) : Except Error Json :=
  (entities.mapM c.encodeEntity).map .array

mutual

/-- The document of a decoded value; a pair becomes an array of two. -/
def encode (c : Codec) : Decoded → Except Error Json
  | .entity e => c.encodeEntity e
  | .pair key value => (encodeScalar value).map fun value => .array [.string key, value]
  | .list items => (c.encodeAll items).map .array
  | .json value => .ok value

def encodeAll (c : Codec) : List Decoded → Except Error (List Json)
  | [] => .ok []
  | item :: rest => do
    let first ← c.encode item
    let more ← c.encodeAll rest
    .ok (first :: more)

end

mutual

/-- The form in which a decoded value is kept as an extra field; a pair becomes a triple. -/
def canonical (c : Codec) : Decoded → Except Error Json
  | .entity e => c.encodeEntity e
  | .pair key value => c.encodeTriple (key, value)
  | .list items => (c.canonicalAll items).map .array
  | .json value => .ok value

def canonicalAll (c : Codec) : List Decoded → Except Error (List Json)
  | [] => .ok []
  | item :: rest => do
    let first ← c.canonical item
    let more ← c.canonicalAll rest
    .ok (first :: more)

end

def pack (c : Codec) (value : Decoded) : Except Error String :=
  (c.encode value).map Json.render

end Codec

namespace Dataset

/-- The fields that a request to create a dataset may carry. -/
def creatable : List String :=
  ["name", "path", "dataType", "fileFormat", "metadata", "versionId", "processInstance", "taskName",
    "versionMetadata", "locations"]

/-- Refuses members that a request to create a dataset may not carry, all of them at once. -/
def checkCreatable (members : List (String × Json)) : Except Error Unit :=
  match (Entries.keys members).filter (!creatable.contains ·) with
  | [] => .ok ()
  | first :: rest => .error ((Cause.forbiddenFields (first :: rest) creatable).atField first)

/-- The body of a request to create the dataset. -/
def createRequest (d : Dataset) (c : Codec) : Except Error Json := do
  let members ← c.encodeDataset d
  checkCreatable members
  .ok (.object members)

end Dataset

namespace Decoded

def describe : Decoded → String
  | .entity _ => "an entry"
  | .pair _ _ => "a metadata pair"
  | .list _ => "a list"
  | .json _ => "a bare json value"

/-- The entry that was read, if it was one. -/
def toEntity : Decoded → Except Error Entity
  | .entity e => .ok e
  | value => .error (Cause.expectedEntity value.describe).error

/-- The entries that were read: one, or a list of them. -/
def toEntities : Decoded → Except Error (List Entity)
  | .list items => items.mapM toEntity
  | value => value.toEntity.map fun e => [e]

end Decoded

end DataCatalog
