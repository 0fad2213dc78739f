import DataCatalog.Proofs.Canonical

/-!
# A default kind only adds meaning

Two readings of one document are compared, one without a default kind and one with it.  They differ
at an object without a known tag.  If it has the members of a metadata entry, the first reading
takes it for one and fails unless its type is known, and an entry of a known type is one with every
default kind; any other object without a tag makes the first reading fail.  So wherever the first
reading has a result, the second has the same, at every depth of the document.  Tables that know the
empty tag are left out: there a type that is no text counts as known in the first reading alone.
-/

namespace DataCatalog

/-- No tag of the table is the empty text. -/
def TypeTable.Named (table : TypeTable) : Prop :=
  ∀ row ∈ table.rows, row.2 ≠ ""

theorem TypeTable.named_standard : standard.Named := by
  unfold Named
  decide

theorem TypeTable.Named.kindFor?_empty {table : TypeTable} (h : table.Named) :
    table.kindFor? "" = none := by
  unfold kindFor?
  rw [Option.map_eq_none_iff, List.find?_eq_none]
  intro row hrow
  simpa using h row hrow

namespace Codec

variable {types : TypeTable}

/-! ## What an object is -/

/-- What is read as a metadata entry has a type that the table knows. -/
theorem knowsType_of_readTriple {c : Codec} (hnamed : c.types.Named)
    {members : List (String × Json)} {entry : String × Scalar}
    (h : c.readTriple members = .ok entry) : c.knowsType members = true := by
  have hkind : ∃ kind, c.types.kindFor? (typeTag members) = some kind := by
    unfold readTriple at h
    split at h
    · split at h
      · cases h
      · next kind hkind => exact ⟨kind, hkind⟩
    · cases h
  obtain ⟨kind, hkind⟩ := hkind
  unfold typeTag at hkind
  unfold knowsType
  generalize Entries.get? "type" members = tag? at hkind ⊢
  split at hkind
  · simp only [hkind, Option.isSome_some]
  · rw [hnamed.kindFor?_empty] at hkind
    cases hkind

theorem role_of_role_entity {members : List (String × Json)} {kind : EntityKind}
    (h : (Codec.mk types none).role members = .ok (.entity kind)) (default : EntityKind) :
    (Codec.mk types (some default)).role members = .ok (.entity kind) := by
  unfold role at h ⊢
  cases htag : taggedKind members with
  | error e =>
      rw [htag] at h
      cases h
  | ok tagged =>
      rw [htag] at h
      cases tagged with
      | some _ => exact h
      | none =>
          simp only at h
          split at h <;> cases h

theorem role_of_role_triple {members : List (String × Json)}
    (h : (Codec.mk types none).role members = .ok .triple) (default : EntityKind)
    (hknown : (Codec.mk types (some default)).knowsType members = true) :
    (Codec.mk types (some default)).role members = .ok .triple := by
  unfold role at h ⊢
  cases htag : taggedKind members with
  | error e =>
      rw [htag] at h
      cases h
  | ok tagged =>
      rw [htag] at h
      cases tagged with
      | some kind => cases h
      | none =>
          simp only at h ⊢
          split at h
          · next htriple => rw [htriple, hknown, Bool.and_self, if_pos rfl]
          · cases h

/-! ## Two readings -/

/-- An extra field is kept in a form that does not depend on the default kind, so only the reading
of its value can tell the two apart. -/
theorem canonicalExtra_extends (default : EntityKind) (key : String) {value : Json}
    (hdecode : Extends ((Codec.mk types none).decode value)
      ((Codec.mk types (some default)).decode value)) :
    Extends ((Codec.mk types none).canonicalExtra key value)
      ((Codec.mk types (some default)).canonicalExtra key value) := by
  by_cases hversion : key = Field.versionMetadata.key
  · rw [canonicalExtra, canonicalExtra, if_pos hversion, if_pos hversion]
    exact .refl _
  · rw [canonicalExtra, canonicalExtra, if_neg hversion, if_neg hversion]
    intro kept hkept
    cases hread : (Codec.mk types none).decode value with
    | error e =>
        rw [hread] at hkept
        cases hkept
    | ok d =>
        rw [hread, stored, canonical_defaultKind none (some default)] at hkept
        rw [hdecode d hread, stored, hkept]

/-- Here the value of the member is given with what the induction says of it. -/
theorem readMember_extends (default : EntityKind) (s : Shape) (key : String) {value : Json}
    (hdecode : Extends ((Codec.mk types none).decode value)
      ((Codec.mk types (some default)).decode value))
    (hlocations : Extends ((Codec.mk types none).readLocations value)
      ((Codec.mk types (some default)).readLocations value)) :
    Extends ((Codec.mk types none).readMember s key value)
      ((Codec.mk types (some default)).readMember s key value) := by
  cases hfield : s.field? key with
  | some field =>
      rw [readMember, readMember, hfield]
      exact .refl _
  | none =>
      by_cases hplace : s = .dataset ∧ key = Shape.locationsKey
      · obtain ⟨rfl, rfl⟩ := hplace
        rw [readMember_locations, readMember_locations]
        exact hlocations.map _
      · rw [readMember_extra _ value hfield hplace, readMember_extra _ value hfield hplace]
        exact (canonicalExtra_extends default key hdecode).map _

mutual

theorem decode_extends (hnamed : types.Named) (default : EntityKind) :
    (value : Json) → Extends ((Codec.mk types none).decode value)
      ((Codec.mk types (some default)).decode value)
  | .array items => by
      rw [decode_array, decode_array]
      exact (decodeItems_extends hnamed default items).map _
  | .object members => by
      intro d hd
      rcases decode_object_cases hd with
        ⟨entry, hrole, hentry, rfl⟩ | ⟨kind, edits, hrole, hedits, rfl⟩
      · have hknown : (Codec.mk types (some default)).knowsType members = true :=
          knowsType_of_readTriple hnamed hentry
        rw [decode_object_of_triple (role_of_role_triple hrole default hknown)]
        exact map_eq_ok_iff.mpr ⟨entry, hentry, rfl⟩
      · rw [decode_object_of_entity (role_of_role_entity hrole default)]
        have hmembers := readMembers_extends hnamed default kind.shape members edits hedits
        exact map_eq_ok_iff.mpr ⟨edits, hmembers, rfl⟩
  | .null => .refl _
  | .bool _ => .refl _
  | .number _ => .refl _
  | .string _ => .refl _

theorem decodeItems_extends (hnamed : types.Named) (default : EntityKind) :
    (items : List Json) → Extends (items.mapM (Codec.mk types none).decode)
      (items.mapM (Codec.mk types (some default)).decode)
  | [] => .refl _
  | item :: rest => by
      have hitem := decode_extends hnamed default item
      have hrest := decodeItems_extends hnamed default rest
      rw [List.mapM_cons, List.mapM_cons]
      exact hitem.bind fun _ => hrest.bind fun _ => .refl _

theorem readMembers_extends (hnamed : types.Named) (default : EntityKind) (s : Shape) :
    (members : List (String × Json)) → Extends ((Codec.mk types none).readMembers s members)
      ((Codec.mk types (some default)).readMembers s members)
  | [] => .refl _
  | (key, value) :: rest => by
      have hmember := readMember_extends default s key (decode_extends hnamed default value)
        (readLocations_extends hnamed default value)
      have hrest := readMembers_extends hnamed default s rest
      rw [readMembers_cons, readMembers_cons]
      exact hmember.bind fun _ => hrest.map _

theorem readLocations_extends (hnamed : types.Named) (default : EntityKind) :
    (value : Json) → Extends ((Codec.mk types none).readLocations value)
      ((Codec.mk types (some default)).readLocations value)
  | .null => .refl _
  | .array items => by
      rw [readLocations, readLocations, readLocationItems_eq_mapM, readLocationItems_eq_mapM]
      exact readLocationItems_extends hnamed default items
  | .object _ => .refl _
  | .bool _ => .refl _
  | .number _ => .refl _
  | .string _ => .refl _

theorem readLocationItems_extends (hnamed : types.Named) (default : EntityKind) :
    (items : List Json) → Extends (items.mapM (Codec.mk types none).readLocation)
      (items.mapM (Codec.mk types (some default)).readLocation)
  | [] => .refl _
  | .object members :: rest => by
      have hmembers := readMembers_extends hnamed default .location members
      have hrest := readLocationItems_extends hnamed default rest
      have hlocation : Extends ((Codec.mk types none).readLocation (.object members))
          ((Codec.mk types (some default)).readLocation (.object members)) := by
        rw [readLocation, readLocation]
        exact (Extends.refl _).bind fun _ => hmembers.bind fun _ => .refl _
      rw [List.mapM_cons, List.mapM_cons]
      exact hlocation.bind fun _ => hrest.bind fun _ => .refl _
  | .null :: _ => .refl _
  | .bool _ :: _ => .refl _
  | .number _ :: _ => .refl _
  | .string _ :: _ => .refl _
  | .array _ :: _ => .refl _

end

/-- What is read without a default kind is read the same with each default kind. -/
theorem decode_of_decode_none (hnamed : types.Named) (default : EntityKind) {value : Json}
    {d : Decoded} (h : (Codec.mk types none).decode value = .ok d) :
    (Codec.mk types (some default)).decode value = .ok d :=
  decode_extends hnamed default value d h

/-- A dataset whose location has no tag and whose extra fields are a metadata entry and a list of
folders; the default kind would fit none of them. -/
theorem decode_of_decode_none_nested :
    let value : Json := .object [("_type", .string "dataset-v2"),
      ("metadata", .array [.array [.string "events", .ofInt64 12]]),
      ("locations", .array [.object [("site", .string "SLAC"), ("pk", .ofInt64 3)]]),
      ("calibration", .object (tripleMembers "run" (.string "6201") "integer")),
      ("parents", .array [.object [("name", .string "muons"), ("_type", .string "folder")]])]
    TypeTable.standard.Named ∧ ∃ d, (Codec.mk .standard none).decode value = .ok d ∧
      (Codec.mk .standard (some .group)).decode value = .ok d := by
  intro value
  have hread : (Codec.mk .standard none).decode value = .ok _ := rfl
  exact ⟨TypeTable.named_standard, _, hread,
    decode_of_decode_none TypeTable.named_standard .group hread⟩

end Codec

end DataCatalog
