import DataCatalog.Codec.Scalar
import DataCatalog.Proofs.Entries
import DataCatalog.Proofs.Results

/-!
# Written metadata and written fields are read back

A scalar is written under the tag of its type.  It is read back as long as the table leads from
that tag back to the type; tables with this property are called coherent.  The triples of metadata,
and with them the named fields of every record, are then read back without any loss.
-/

namespace DataCatalog

/-- Every tag that is written for a type is read as that type. -/
def TypeTable.Coherent (table : TypeTable) : Prop :=
  ∀ kind tag, table.tagFor? kind = some tag → table.kindFor? tag = some kind

theorem TypeTable.coherent_standard : standard.Coherent :=
  fun _ _ => kindFor?_standard

/-- The value is neither an array nor an object. -/
def Json.Plain : Json → Prop
  | .array _ => False
  | .object _ => False
  | _ => True

theorem Json.Number.toInt64?_ofInt64 (n : Int64) : (ofInt64 n).toInt64? = some n := by
  have hbound : n.toInt < 0x8000000000000000 := n.toInt_lt
  simp only [ofInt64, toInt64?, if_pos hbound, Int64.ofInt_toInt]

namespace Codec

theorem plain_of_encodeScalar {s : Scalar} {value : Json} (h : encodeScalar s = .ok value) :
    value.Plain := by
  cases s with
  | integer n =>
      cases h
      trivial
  | decimal x =>
      cases x with
      | finite x =>
          cases h
          trivial
      | nan => cases h
      | infinite negative => cases h
  | text s =>
      cases h
      trivial

/-- A scalar that was written is read back by its type. -/
theorem ofJson?_of_encodeScalar {s : Scalar} {value : Json} (h : encodeScalar s = .ok value) :
    Scalar.ofJson? s.kind value = some s := by
  cases s with
  | integer n =>
      cases h
      simp [Scalar.ofJson?, Scalar.kind, Json.ofInt64, Json.Number.toInt64?_ofInt64]
  | decimal x =>
      cases x with
      | finite x =>
          cases h
          rfl
      | nan => cases h
      | infinite negative => cases h
  | text s =>
      cases h
      rfl

/-- The members of a metadata entry. -/
def tripleMembers (key : String) (value : Json) (tag : String) : List (String × Json) :=
  [("key", .string key), ("value", value), ("type", .string tag)]

theorem encodeTriple_eq_ok_iff {c : Codec} {entry : String × Scalar} {triple : Json} :
    c.encodeTriple entry = .ok triple ↔
      ∃ tag value, c.types.tagFor? entry.2.kind = some tag ∧
        encodeScalar entry.2 = .ok value ∧
        triple = .object (tripleMembers entry.1 value tag) := by
  unfold encodeTriple
  cases htag : c.types.tagFor? entry.2.kind with
  | none => simp
  | some tag =>
      cases hvalue : encodeScalar entry.2 with
      | error e => simp
      | ok value =>
          simp only [Except.ok.injEq, Option.some.injEq]
          constructor
          · rintro rfl
            exact ⟨tag, value, rfl, rfl, rfl⟩
          · rintro ⟨_, _, rfl, rfl, rfl⟩
            rfl

@[simp] theorem isTriple_tripleMembers (key : String) (value : Json) (tag : String) :
    isTriple (tripleMembers key value tag) = true := rfl

theorem readTriple_tripleMembers {c : Codec} {key tag : String} {value : Json}
    {kind : ScalarKind} {s : Scalar}
    (hkind : c.types.kindFor? tag = some kind)
    (hscalar : Scalar.ofJson? kind value = some s) :
    c.readTriple (tripleMembers key value tag) = .ok (key, s) := by
  have hkey : Entries.get? "key" (tripleMembers key value tag) = some (.string key) := rfl
  have hvalue : Entries.get? "value" (tripleMembers key value tag) = some value := rfl
  have htag : typeTag (tripleMembers key value tag) = tag := rfl
  simp only [readTriple, hkey, htag, hkind, hvalue, Option.getD_some, hscalar]

variable {c : Codec}

/-- A metadata entry that was written is read back. -/
theorem readEntry_of_encodeTriple (hcoherent : c.types.Coherent) (field : String)
    {entry : String × Scalar} {triple : Json} (h : c.encodeTriple entry = .ok triple) :
    c.readEntry field triple = .ok entry := by
  obtain ⟨tag, value, htag, hvalue, rfl⟩ := encodeTriple_eq_ok_iff.mp h
  have hkind := hcoherent entry.2.kind tag htag
  simp only [readEntry, isTriple_tripleMembers, if_true]
  exact readTriple_tripleMembers hkind (ofJson?_of_encodeScalar hvalue)

theorem encodeMetadata_eq_ok_iff {m : Metadata} {value : Json} :
    c.encodeMetadata m = .ok value ↔
      ∃ triples, m.entries.mapM c.encodeTriple = .ok triples ∧ value = .array triples := by
  rw [encodeMetadata, map_eq_ok_iff]
  simp only [eq_comm]

/-- Metadata that was written is read back, in the same order. -/
theorem readMetadata_of_encodeMetadata (hcoherent : c.types.Coherent) (field : String)
    {m : Metadata} {value : Json} (h : c.encodeMetadata m = .ok value) :
    c.readMetadata field value = .ok m := by
  obtain ⟨triples, htriples, rfl⟩ := encodeMetadata_eq_ok_iff.mp h
  have hentries : triples.mapM (c.readEntry field) = .ok m.entries :=
    mapM_eq_ok_of_inverse (fun _ _ => readEntry_of_encodeTriple hcoherent field) htriples
  simp only [readMetadata, hentries, map_ok, OrderedMap.ofList_entries]

theorem readInteger_ofInt64 (field : String) (n : Int64) :
    readInteger field (.ofInt64 n) = .ok (some n) := by
  simp only [readInteger, Json.ofInt64, Json.Number.toInt64?_ofInt64]

theorem readField_metadata {field : String} {value : Json} {m : Metadata}
    (hread : c.readMetadata field value = .ok m) (htruthy : Metadata.truthy m = true) :
    c.readField field .metadata value = .ok (some m) := by
  change (c.readMetadata field value).map (fun m => if Metadata.truthy m then some m else none) =
    (.ok (some m) : Except Error (Option Metadata))
  rw [hread, map_ok, if_pos htruthy]

/-- The value of a named field that was written is read back. -/
theorem readField_of_encodeValue (hcoherent : c.types.Coherent) (field : String)
    {type : FieldType} {v : type.Value} {value : Json}
    (htruthy : type.truthy v = true) (h : c.encodeValue type v = .ok value) :
    c.readField field type value = .ok (some v) := by
  cases type with
  | integer =>
      cases h
      exact readInteger_ofInt64 field v
  | text =>
      cases h
      rfl
  | metadata =>
      exact readField_metadata (readMetadata_of_encodeMetadata hcoherent field h) htruthy

end Codec

end DataCatalog
