import DataCatalog.Codec.Scalar
import DataCatalog.Json.Reader

/-!
# Reading documents by their shape

An object is an entry if its tag names a kind, else a metadata entry if it has the members of one,
else an entry of the default kind.  A metadata entry whose type tag is unknown is one only where
there is no default kind.  Each member of an entry sets a named field or an extra field; an extra
field that is an array or an object is read in turn and kept in the form in which it would be
written.
-/

namespace DataCatalog.Codec

/-- The kind that the tag of an object names, if it has a tag that names one. -/
def taggedKind (members : List (String × Json)) : Except Error (Option EntityKind) :=
  match Entries.get? Shape.tagKey members with
  | none => .ok none
  | some .null => .ok none
  | some (.string tag) => .ok (EntityKind.ofTag? tag)
  | some _ => .error (Cause.tagNotString.atField Shape.tagKey)

inductive Role where
  | entity (kind : EntityKind)
  | triple

def knowsType (c : Codec) (members : List (String × Json)) : Bool :=
  match Entries.get? "type" members with
  | some (.string tag) => (c.types.kindFor? tag).isSome
  | _ => false

/-- What an object is by its tag, its members and the default kind. -/
def role (c : Codec) (members : List (String × Json)) : Except Error Role :=
  match taggedKind members with
  | .error e => .error e
  | .ok (some kind) => .ok (.entity kind)
  | .ok none =>
    match c.defaultKind with
    | none => if isTriple members then .ok .triple else .error Cause.noTypeInformation.error
    | some kind =>
      if isTriple members && c.knowsType members then .ok .triple else .ok (.entity kind)

/-- The form in which metadata is kept as an extra field; empty metadata is null. -/
def storedMetadata (c : Codec) (m : Metadata) : Except Error Json :=
  if Metadata.truthy m then c.encodeMetadata m else .ok .null

/-- The form in which a document is kept as an extra field.  A fault that names no field is laid
to the extra field. -/
def stored (c : Codec) (key : String) : Except Error Decoded → Except Error Json
  | .error e => .error (e.orField key)
  | .ok decoded => c.canonical decoded

/-- An object among locations may have no tag or that of a location. -/
def checkLocationTag (members : List (String × Json)) : Except Error Unit :=
  match taggedKind members with
  | .error e => .error e
  | .ok none => .ok ()
  | .ok (some .location) => .ok ()
  | .ok (some kind) => .error ((Cause.misplacedEntity kind).atField Shape.locationsKey)

mutual

def decode (c : Codec) : Json → Except Error Decoded
  | .array items => (c.decodeAll items).map .list
  | .object members =>
    match c.role members with
    | .error e => .error e
    | .ok .triple => (c.readTriple members).map fun (key, value) => .pair key value
    | .ok (.entity .dataset) =>
      (c.readMembers .dataset members).map fun edits => .entity (.dataset (.ofEdits edits))
    | .ok (.entity .folder) =>
      (c.readMembers .container members).map fun edits => .entity (.folder (.ofEdits edits))
    | .ok (.entity .group) =>
      (c.readMembers .container members).map fun edits => .entity (.group (.ofEdits edits))
    | .ok (.entity .location) =>
      (c.readMembers .location members).map fun edits => .entity (.location (.ofEdits edits))
  | value => .ok (.json value)

def decodeAll (c : Codec) : List Json → Except Error (List Decoded)
  | [] => .ok []
  | item :: rest => do
    let first ← c.decode item
    let more ← c.decodeAll rest
    .ok (first :: more)

/-- The edits that the members of an object make, in order. -/
def readMembers (c : Codec) (s : Shape) : List (String × Json) → Except Error (List (Edit s))
  | [] => .ok []
  | (key, value) :: rest => do
    let first ←
      match s.field? key with
      | some ⟨field, has⟩ =>
        (c.readField key field.type value).map fun value? =>
          value?.toList.map (Edit.set field has)
      | none =>
        if h : s = .dataset ∧ key = Shape.locationsKey then
          (c.readLocations value).map fun items => [.locations h.1 items]
        else if key = Field.versionMetadata.key then do
          let m ← c.readMetadata key value
          let value ← c.storedMetadata m
          .ok [.extra key value]
        else (c.stored key (c.decode value)).map fun value => [.extra key value]
    let more ← c.readMembers s rest
    .ok (first ++ more)

/-- Reads the locations of a dataset; null is none. -/
def readLocations (c : Codec) : Json → Except Error (List Location)
  | .null => .ok []
  | .array items => c.readLocationItems items
  | _ => .error (Cause.locationsNotArray.atField Shape.locationsKey)

def readLocationItems (c : Codec) : List Json → Except Error (List Location)
  | [] => .ok []
  | .object members :: rest => do
    checkLocationTag members
    let edits ← c.readMembers .location members
    let more ← c.readLocationItems rest
    .ok (.ofEdits edits :: more)
  | _ :: _ => .error (Cause.locationNotObject.atField Shape.locationsKey)

end

def unpack (c : Codec) (text : String) : Except Error Decoded :=
  match Json.parse text with
  | .error fault => .error (Cause.invalidJson fault).error
  | .ok value => c.decode value

end DataCatalog.Codec
