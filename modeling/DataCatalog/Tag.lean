/-!
# Tags

The tags that name entries and scalar types in documents.  An entry's tag is known by how it
begins, so that `dataset-v2` still names a dataset; a scalar's tag is looked up in a table that
callers can replace.
-/

namespace DataCatalog

inductive EntityKind where
  | dataset
  | folder
  | group
  | location
  deriving DecidableEq, Repr

namespace EntityKind

def all : List EntityKind :=
  [.dataset, .folder, .group, .location]

def tag : EntityKind → String
  | .dataset => "dataset"
  | .folder => "folder"
  | .group => "group"
  | .location => "location"

/-- The kind whose tag the text begins with. -/
def ofTag? (text : String) : Option EntityKind :=
  all.find? fun kind => kind.tag.toList.isPrefixOf text.toList

/-- The kind with exactly this tag. -/
def ofName? (name : String) : Option EntityKind :=
  all.find? fun kind => kind.tag = name

theorem ofName?_tag (kind : EntityKind) : ofName? kind.tag = some kind := by
  cases kind <;> decide

theorem ofTag?_tag (kind : EntityKind) : ofTag? kind.tag = some kind := by
  cases kind <;> decide

end EntityKind

inductive ScalarKind where
  | integer
  | decimal
  | text
  deriving DecidableEq, Repr

def ScalarKind.name : ScalarKind → String
  | .integer => "Integer"
  | .decimal => "Decimal"
  | .text => "String"

/-- Which tag stands for which scalar type.  Look-ups take the first row that fits. -/
structure TypeTable where
  rows : List (ScalarKind × String)
  deriving DecidableEq

namespace TypeTable

def standard : TypeTable :=
  ⟨[(.integer, "integer"), (.decimal, "decimal"), (.text, "string")]⟩

def tagFor? (table : TypeTable) (kind : ScalarKind) : Option String :=
  (table.rows.find? fun row => row.1 = kind).map Prod.snd

def kindFor? (table : TypeTable) (tag : String) : Option ScalarKind :=
  (table.rows.find? fun row => row.2 = tag).map Prod.fst

theorem kindFor?_standard {kind : ScalarKind} {tag : String}
    (h : standard.tagFor? kind = some tag) : standard.kindFor? tag = some kind := by
  cases kind <;> cases h <;> decide

end TypeTable

end DataCatalog
