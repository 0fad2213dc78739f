import DataCatalog.Record.Basic

/-!
# Entries of the catalog

Folders and groups are containers and differ only by their tag.  A dataset is a record with a list
of locations.  Every record arises from the empty one by edits, which are the steps of its
builders.
-/

namespace DataCatalog

/-- The body of a folder or a group. -/
abbrev Container : Type :=
  Record .container

abbrev Location : Type :=
  Record .location

/-- A dataset with the places where it is stored. -/
structure Dataset extends Record .dataset where
  locations : List Location

/-- One step in building a record.  Only a dataset has locations. -/
inductive Edit (s : Shape) where
  | set (field : Field) (has : field ∈ s.fields) (value : field.Value)
  | extra (key : String) (value : Json)
  | locations (dataset : s = .dataset) (items : List Location)
  | addLocation (dataset : s = .dataset) (item : Location)

namespace Record

variable {s : Shape}

/-- Applies a step to the named and extra fields. -/
def edit (r : Record s) : Edit s → Record s
  | .set field has value => r.set field value has
  | .extra key value => r.withExtra key value
  | .locations _ _ => r
  | .addLocation _ _ => r

def ofEdits (edits : List (Edit s)) : Record s :=
  edits.foldl edit empty

end Record

namespace Dataset

def empty : Dataset :=
  { toRecord := .empty, locations := [] }

instance : Inhabited Dataset :=
  ⟨empty⟩

def edit (d : Dataset) (e : Edit .dataset) : Dataset where
  toRecord := d.toRecord.edit e
  locations :=
    match e with
    | .locations _ items => items
    | .addLocation _ item => d.locations ++ [item]
    | _ => d.locations

def ofEdits (edits : List (Edit .dataset)) : Dataset :=
  edits.foldl edit empty

theorem toRecord_foldl_edit (d : Dataset) (edits : List (Edit .dataset)) :
    (edits.foldl edit d).toRecord = edits.foldl Record.edit d.toRecord := by
  induction edits generalizing d with
  | nil => rfl
  | cons e rest ih => exact ih (d.edit e)

def same (d e : Dataset) : Bool :=
  d.toRecord.same e.toRecord
    && d.locations.length == e.locations.length
    && (d.locations.zip e.locations).all fun (a, b) => Record.same a b

end Dataset

inductive Entity where
  | dataset (body : Dataset)
  | folder (body : Container)
  | group (body : Container)
  | location (body : Location)

inductive ContainerKind where
  | folder
  | group
  deriving DecidableEq

def ContainerKind.entityKind : ContainerKind → EntityKind
  | .folder => .folder
  | .group => .group

namespace Entity

def kind : Entity → EntityKind
  | .dataset _ => .dataset
  | .folder _ => .folder
  | .group _ => .group
  | .location _ => .location

/-- Sets a field that every entry has. -/
def set (e : Entity) (f : Field) (value : f.Value) (has : f ∈ Shape.entry.fields := by decide) :
    Entity :=
  match e with
  | .dataset d => .dataset { d with toRecord := d.toRecord.set f value (Shape.mem_fields has) }
  | .folder r => .folder (r.set f value (Shape.mem_fields has))
  | .group r => .group (r.set f value (Shape.mem_fields has))
  | .location r => .location (r.set f value (Shape.mem_fields has))

/-- Equality of entries of one kind. -/
def same : Entity → Entity → Bool
  | .dataset d, .dataset e => d.same e
  | .folder a, .folder b => Record.same a b
  | .group a, .group b => Record.same a b
  | .location a, .location b => Record.same a b
  | _, _ => false

end Entity

end DataCatalog
