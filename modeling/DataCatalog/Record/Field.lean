import DataCatalog.Metadata

/-!
# Named fields

Records of the catalog have named fields of three types.  Which fields a record has, and in which
order they are written, is its shape.  A value is stored only if it carries information: it is
kept as a value with the proof that it is truthy.
-/

namespace DataCatalog

inductive FieldType where
  | integer
  | text
  | metadata
  deriving DecidableEq

namespace FieldType

def Value : FieldType → Type
  | .integer => Int64
  | .text => String
  | .metadata => Metadata

/-- Zero, the empty text and empty metadata carry no information. -/
def truthy : (type : FieldType) → type.Value → Bool
  | .integer, (n : Int64) => n != 0
  | .text, (s : String) => s != ""
  | .metadata, (m : Metadata) => Metadata.truthy m

def same : (type : FieldType) → type.Value → type.Value → Bool
  | .integer, (m : Int64), (n : Int64) => m == n
  | .text, (s : String), (t : String) => s == t
  | .metadata, (m : Metadata), (n : Metadata) => Metadata.same m n

end FieldType

inductive Field where
  | pk
  | path
  | name
  | parentPk
  | dataType
  | fileFormat
  | metadata
  | versionId
  | processInstance
  | taskName
  | versionMetadata
  | site
  | resource
  deriving DecidableEq

namespace Field

def key : Field → String
  | .pk => "pk"
  | .path => "path"
  | .name => "name"
  | .parentPk => "parentPk"
  | .dataType => "dataType"
  | .fileFormat => "fileFormat"
  | .metadata => "metadata"
  | .versionId => "versionId"
  | .processInstance => "processInstance"
  | .taskName => "taskName"
  | .versionMetadata => "versionMetadata"
  | .site => "site"
  | .resource => "resource"

theorem key_injective {f g : Field} (h : f.key = g.key) : f = g := by
  cases f <;> cases g <;> first | rfl | exact absurd h (by decide)

def type : Field → FieldType
  | .pk | .parentPk | .versionId | .processInstance => .integer
  | .metadata | .versionMetadata => .metadata
  | _ => .text

abbrev Value (f : Field) : Type :=
  f.type.Value

/-- A value of the field that carries information. -/
def Kept (f : Field) : Type :=
  { value : f.Value // f.type.truthy value = true }

/-- The value, if it carries information. -/
def keep (f : Field) (value : f.Value) : Option f.Kept :=
  if h : f.type.truthy value = true then some ⟨value, h⟩ else none

theorem keep_of_truthy {f : Field} {value : f.Value} (h : f.type.truthy value = true) :
    f.keep value = some ⟨value, h⟩ :=
  dif_pos h

theorem keep_of_falsy {f : Field} {value : f.Value} (h : f.type.truthy value = false) :
    f.keep value = none :=
  dif_neg (by simp [h])

end Field

/-- The kinds of records, by the fields that they have. -/
inductive Shape where
  | entry
  | node
  | container
  | location
  | dataset
  deriving DecidableEq

namespace Shape

/-- The named fields of a shape, in the order in which they are written. -/
def fields : Shape → List Field
  | .entry => [.pk, .path]
  | .node => [.pk, .path, .name, .parentPk]
  | .container => [.pk, .path, .name, .parentPk, .metadata]
  | .location => [.pk, .path, .site, .resource, .metadata]
  | .dataset =>
    [.pk, .path, .name, .parentPk, .dataType, .fileFormat, .metadata, .versionId,
      .processInstance, .taskName, .versionMetadata]

def tagKey : String :=
  "_type"

def locationsKey : String :=
  "locations"

/-- The keys that no extra field has. -/
def reserved (s : Shape) : List String :=
  tagKey :: s.fields.map Field.key ++ (if s = .dataset then [locationsKey] else [])

def field? (s : Shape) (key : String) : Option { f : Field // f ∈ s.fields } :=
  s.fields.attach.find? fun f => f.val.key = key

/-- Every shape has the fields of an entry. -/
theorem mem_fields {s : Shape} {f : Field} (h : f ∈ entry.fields) : f ∈ s.fields := by
  revert h
  cases s <;> cases f <;> decide

theorem key_of_field? {s : Shape} {key : String} {f : { f : Field // f ∈ s.fields }}
    (h : s.field? key = some f) : f.val.key = key := by
  simpa using List.find?_some h

end Shape

end DataCatalog
