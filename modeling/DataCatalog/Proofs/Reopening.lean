import DataCatalog.Proofs.Canonical
import DataCatalog.Proofs.MetadataText

/-!
# What is printed can be read again

A document that was read and written again is printed, and the text is read once more.  Its doubles
are read from their digits, and everything else comes back as it was written.  A double stays a
double, so every member is read as before: nothing but the nesting limit can refuse the text.  The
limit does so where the document that was read nests as deep as the reader goes, and what is written
of it one level deeper.
-/

namespace DataCatalog

/-! ## No object has a key twice -/

namespace Codec

variable {c : Codec}

theorem wellFormed_of_canonical {d : Decoded} (hd : d.WellFormed) {value : Json}
    (h : c.canonical d = .ok value) : value.WellFormed := by
  induction hd generalizing value with
  | entity he => exact wellFormed_of_encodeEntity he h
  | pair key s => exact wellFormed_of_encodeTriple h
  | list _ ih =>
      rw [canonical, canonicalAll_eq_mapM] at h
      obtain ⟨values, hvalues, rfl⟩ := map_eq_ok_iff.mp h
      exact Json.wellFormed_of_mapM hvalues ih
  | json hvalue =>
      cases h
      exact hvalue

theorem distinctResults (c : Codec) : c.ResultRules Decoded.WellFormed .wellFormed where
  plain hplain := .json (Json.wellFormed_of_plain hplain)
  list hitems := .list hitems
  triple {_ entry} _ := .pair entry.1 entry.2
  entity h := .entity h
  field _ := trivial
  versionMetadata _ hkept := wellFormed_of_storedMetadata hkept
  extra _ hd hkept := wellFormed_of_canonical hd hkept

end Codec

namespace Codec

variable {c : Codec}

/-! ## Metadata -/

theorem readMetadata_reread_succeeds (hcoherent : c.types.Coherent) (field : String) {m : Metadata}
    {value : Json} (h : c.encodeMetadata m = .ok value) :
    Succeeds (c.readMetadata field value.reread) :=
  ⟨m.reread, readMetadata_of_encodeMetadata hcoherent field (encodeMetadata_reread h)⟩

theorem readInteger_reread (field : String) (n : Int64) :
    readInteger field (Json.ofInt64 n).reread = .ok (some n) := by
  rw [Json.reread_ofInt64, readInteger_ofInt64]

theorem readField_reread_succeeds (hcoherent : c.types.Coherent) (field : String)
    {type : FieldType} {v : type.Value} {value : Json} (h : c.encodeValue type v = .ok value) :
    Succeeds (c.readField field type value.reread) := by
  cases type with
  | integer =>
      cases h
      exact ⟨some v, readInteger_reread field v⟩
  | text =>
      cases h
      exact ⟨some v, rfl⟩
  | metadata => exact (readMetadata_reread_succeeds hcoherent field h).map _

/-! ## Members -/

theorem readMembers_reread_succeeds_iff {s : Shape} {members : List (String × Json)} :
    Succeeds (c.readMembers s (Json.rereadMembers members)) ↔
      ∀ member ∈ members, Succeeds (c.readMember s member.1 member.2.reread) := by
  rw [readMembers_succeeds_iff, Json.rereadMembers_eq_map, List.forall_mem_map]

/-- Extra fields are read as such when they have been printed, with any default kind. -/
def rereadable (types : TypeTable) : FieldRule where
  named _ _ := True
  extra key value := ∀ k, Succeeds ((Codec.mk types k).canonicalExtra key value.reread)

variable {s : Shape}

theorem readMember_named_succeeds (hcoherent : c.types.Coherent) {r : Record s}
    {members : List (String × Json)} (h : c.encodeNamed r s.fields = .ok members) :
    ∀ member ∈ members, Succeeds (c.readMember s member.1 member.2.reread) := by
  intro member hmember
  obtain ⟨f, has, v, -, hkey, hvalue⟩ := exists_field_of_mem h hmember
  rw [← hkey, readMember_field c has]
  exact (readField_reread_succeeds hcoherent f.key hvalue).map _

theorem readMember_extras_succeeds {r : Record s} (hr : r.Obeys (rereadable c.types)) :
    ∀ member ∈ r.extras.entries, Succeeds (c.readMember s member.1 member.2.reread) := by
  intro member hmember
  have hkey : member.1 ∉ s.reserved := r.extras.allowed _ (Entries.mem_keys_of_mem hmember)
  rw [readMember_extra c _ (Shape.field?_eq_none_of_not_mem_reserved hkey)
    (Shape.ne_locationsKey_of_not_mem_reserved hkey)]
  exact (hr.extras member hmember c.defaultKind).map _

theorem readMember_record_succeeds (hcoherent : c.types.Coherent) {r : Record s}
    (hr : r.Obeys (rereadable c.types)) {members : List (String × Json)}
    (h : c.encodeRecord r = .ok members) :
    ∀ member ∈ members, Succeeds (c.readMember s member.1 member.2.reread) := by
  obtain ⟨named, hnamed, rfl⟩ := encodeRecord_eq_ok_iff.mp h
  exact List.forall_mem_append.mpr
    ⟨readMember_named_succeeds hcoherent hnamed, readMember_extras_succeeds hr⟩

theorem readLocation_reread_succeeds (hcoherent : c.types.Coherent) {location : Location}
    (hlocation : location.Obeys (rereadable c.types)) {members : List (String × Json)}
    (h : c.encodeRecord location = .ok members) :
    Succeeds (c.readLocation (Json.object members).reread) := by
  have htag : taggedKind (Json.rereadMembers members) = .ok none := by
    have huntagged := (writesExactly_of_encodeBody (e := .location location) h).untagged
    rw [← Json.keys_rereadMembers] at huntagged
    rw [taggedKind, Entries.get?_eq_none_iff.mpr huntagged]
  have hmembers : Succeeds (c.readMembers .location (Json.rereadMembers members)) :=
    readMembers_reread_succeeds_iff.mpr (readMember_record_succeeds hcoherent hlocation h)
  rw [Json.reread, readLocation, checkLocationTag, htag, ok_bind, bind_ok_eq_map]
  exact hmembers.map _

theorem readMember_locations_succeeds (hcoherent : c.types.Coherent) {locations : List Location}
    (hlocations : ∀ location ∈ locations, location.Obeys (rereadable c.types))
    {members : List (String × Json)} (h : c.encodeLocations locations = .ok members) :
    ∀ member ∈ members, Succeeds (c.readMember .dataset member.1 member.2.reread) := by
  rcases encodeLocations_eq_ok_iff.mp h with ⟨-, rfl⟩ | ⟨-, items, hitems, rfl⟩
  · exact List.forall_mem_nil _
  · intro member hmember
    obtain rfl := List.mem_singleton.mp hmember
    rw [readMember_locations, Json.reread, Json.rereadItems_eq_map, readLocations,
      readLocationItems_eq_mapM]
    apply Succeeds.map
    apply Succeeds.mapM
    intro item hitem
    obtain ⟨value, hvalue, rfl⟩ := List.mem_map.mp hitem
    obtain ⟨location, hlocation, hwritten⟩ := exists_mem_of_mapM_eq_ok hitems hvalue
    obtain ⟨fields, hfields, rfl⟩ := map_eq_ok_iff.mp hwritten
    exact readLocation_reread_succeeds hcoherent (hlocations location hlocation) hfields

/-- A printed entry is read as one of its kind. -/
theorem decode_entity_succeeds (hcoherent : c.types.Coherent) {e : Entity}
    (he : e.Obeys (rereadable c.types)) {value : Json} (h : c.encodeEntity e = .ok value) :
    Succeeds (c.decode value.reread) := by
  obtain ⟨members, hmembers, rfl⟩ := map_eq_ok_iff.mp h
  have hbody : ∀ member ∈ members,
      Succeeds (c.readMember e.kind.shape member.1 member.2.reread) := by
    cases e with
    | dataset d =>
        obtain ⟨named, hnamed, locations, hlocations, rfl⟩ := encodeDataset_eq_ok_iff.mp hmembers
        refine List.forall_mem_append.mpr ⟨List.forall_mem_append.mpr ⟨?_, ?_⟩, ?_⟩
        · exact readMember_named_succeeds hcoherent hnamed
        · exact readMember_locations_succeeds hcoherent he.locations hlocations
        · exact readMember_extras_succeeds he.record
    | folder r => exact readMember_record_succeeds hcoherent he hmembers
    | group r => exact readMember_record_succeeds hcoherent he hmembers
    | location r => exact readMember_record_succeeds hcoherent he hmembers
  have htag : Succeeds (c.readMember e.kind.shape Shape.tagKey (.string e.kind.tag)) := by
    cases e <;> exact ⟨_, rfl⟩
  have hread : Succeeds (c.readMembers e.kind.shape
      (Json.rereadMembers ((Shape.tagKey, .string e.kind.tag) :: members))) :=
    readMembers_reread_succeeds_iff.mpr (List.forall_mem_cons.mpr ⟨htag, hbody⟩)
  have hrole : c.role (Json.rereadMembers ((Shape.tagKey, .string e.kind.tag) :: members)) =
      .ok (.entity e.kind) := role_tagged e _
  rw [Json.reread, decode_object_of_entity hrole]
  exact hread.map _

end Codec

/-! ## Everything that is read -/

/-- What is written of the value is read where it has been printed, with any default kind. -/
structure Decoded.Reopens (types : TypeTable) (d : Decoded) : Prop where
  document : ∀ k k' written, (Codec.mk types k).encode d = .ok written →
    Succeeds ((Codec.mk types k').decode written.reread)
  extra : ∀ k k' kept, (Codec.mk types k).canonical d = .ok kept →
    Succeeds ((Codec.mk types k').decode kept.reread)

namespace Codec

variable {types : TypeTable}

theorem decode_items_succeeds {write : Decoded → Except Error Json} {k' : Option EntityKind}
    {items : List Decoded} {values : List Json} (h : items.mapM write = .ok values)
    (hitems : ∀ item ∈ items, ∀ value, write item = .ok value →
      Succeeds ((Codec.mk types k').decode value.reread)) :
    Succeeds ((Codec.mk types k').decode (Json.array values).reread) := by
  rw [Json.reread, Json.rereadItems_eq_map, decode_array]
  apply Succeeds.map
  apply Succeeds.mapM
  intro value hvalue
  obtain ⟨written, hwritten, rfl⟩ := List.mem_map.mp hvalue
  obtain ⟨item, hitem, hwrite⟩ := exists_mem_of_mapM_eq_ok h hwritten
  exact hitems item hitem written hwrite

theorem reopens_list {items : List Decoded} (h : ∀ item ∈ items, item.Reopens types) :
    (Decoded.list items).Reopens types where
  document k k' written hwritten := by
    rw [encode, encodeAll_eq_mapM] at hwritten
    obtain ⟨values, hvalues, rfl⟩ := map_eq_ok_iff.mp hwritten
    exact decode_items_succeeds hvalues fun item hitem => (h item hitem).document k k'
  extra k k' kept hkept := by
    rw [canonical, canonicalAll_eq_mapM] at hkept
    obtain ⟨values, hvalues, rfl⟩ := map_eq_ok_iff.mp hkept
    exact decode_items_succeeds hvalues fun item hitem => (h item hitem).extra k k'

theorem plain_reread {value : Json} (h : value.Plain) : value.reread.Plain := by
  cases value with
  | array items => cases h
  | object members => cases h
  | _ => trivial

theorem decode_plain_succeeds (c : Codec) {value : Json} (h : value.Plain) :
    Succeeds (c.decode value.reread) :=
  ⟨_, decode_plain c (plain_reread h)⟩

theorem reopens_plain {value : Json} (h : value.Plain) : (Decoded.json value).Reopens types where
  document k k' written hwritten := by
    cases hwritten
    exact decode_plain_succeeds _ h
  extra k k' kept hkept := by
    cases hkept
    exact decode_plain_succeeds _ h

theorem reopens_entity (hcoherent : types.Coherent) {e : Entity} (h : e.Obeys (rereadable types)) :
    (Decoded.entity e).Reopens types := by
  have hentity {k k' : Option EntityKind} {written : Json}
      (hwritten : (Codec.mk types k).encodeEntity e = .ok written) :
      Succeeds ((Codec.mk types k').decode written.reread) := by
    rw [encodeEntity_defaultKind k k'] at hwritten
    exact decode_entity_succeeds (c := ⟨types, k'⟩) hcoherent h hwritten
  constructor
  · intro k k' written hwritten
    rw [encode] at hwritten
    exact hentity hwritten
  · intro k k' kept hkept
    rw [canonical] at hkept
    exact hentity hkept

theorem reopens_pair (hcoherent : types.Coherent) (key : String) (s : Scalar) :
    (Decoded.pair key s).Reopens types where
  document k k' written hwritten := by
    obtain ⟨value, hvalue, rfl⟩ := map_eq_ok_iff.mp hwritten
    have hplain := plain_of_encodeScalar hvalue
    obtain ⟨d, hd⟩ := decode_plain_succeeds (Codec.mk types k') hplain
    have hlist : (Json.array [.string key, value]).reread =
        .array [.string key, value.reread] := rfl
    rw [hlist, decode_array, List.mapM_cons, List.mapM_cons, hd]
    exact ⟨_, rfl⟩
  extra k k' kept hkept :=
    ⟨_, decode_of_encodeTriple (c := ⟨types, k'⟩) hcoherent (encodeTriple_reread hkept)⟩

theorem stored_reread_succeeds (hcomplete : types.Complete) {k : Option EntityKind} {key : String}
    {value : Json} (h : Succeeds ((Codec.mk types k).decode value)) :
    Succeeds ((Codec.mk types k).stored key ((Codec.mk types k).decode value)) := by
  obtain ⟨d, hd⟩ := h
  have hfinite : d.IsFinite := ((finiteReading hcomplete).decode value).result hd
  rw [hd]
  exact canonical_succeeds hcomplete hfinite

theorem storedMetadata_reread_succeeds (hcomplete : types.Complete) (hcoherent : types.Coherent)
    {k k' : Option EntityKind} {m : Metadata} {kept : Json}
    (h : (Codec.mk types k).storedMetadata m = .ok kept) :
    Succeeds ((Codec.mk types k').canonicalExtra Field.versionMetadata.key kept.reread) := by
  rw [canonicalExtra, if_pos rfl]
  have hread : Succeeds ((Codec.mk types k').readMetadata Field.versionMetadata.key kept.reread) := by
    unfold storedMetadata at h
    split at h
    · exact readMetadata_reread_succeeds (c := ⟨types, k'⟩) hcoherent _ h
    · cases h
      exact ⟨.empty, rfl⟩
  refine hread.bind fun again hagain => ?_
  exact storedMetadata_succeeds hcomplete ((readMetadata_yields _ _).result hagain)

theorem reopeningResults (hcomplete : types.Complete) (hcoherent : types.Coherent)
    (k : Option EntityKind) :
    (Codec.mk types k).ResultRules (Decoded.Reopens types) (rereadable types) where
  plain := reopens_plain
  list := reopens_list
  triple {_ entry} _ := reopens_pair hcoherent entry.1 entry.2
  entity h := reopens_entity hcoherent h
  field _ := trivial
  versionMetadata _ hkept _ := storedMetadata_reread_succeeds hcomplete hcoherent hkept
  extra hversion hd hkept k' := by
    rw [canonicalExtra, if_neg hversion]
    exact stored_reread_succeeds hcomplete (hd.extra k k' _ hkept)

/-- What is read and written again is read once more where it has been printed. -/
theorem decode_reread_succeeds (hcomplete : types.Complete) (hcoherent : types.Coherent)
    (k k' : Option EntityKind) {value written : Json} {d : Decoded}
    (hread : (Codec.mk types k).decode value = .ok d)
    (hwritten : (Codec.mk types k).encode d = .ok written) :
    Succeeds ((Codec.mk types k').decode written.reread) := by
  have hreopens : d.Reopens types := (reopeningResults hcomplete hcoherent k).decode hread
  exact hreopens.document k k' written hwritten

theorem wellFormed_of_decode {c : Codec} {value written : Json} {d : Decoded}
    (hread : c.decode value = .ok d) (hwritten : c.encode d = .ok written) :
    written.WellFormed := by
  have hdistinct : d.WellFormed := c.distinctResults.decode hread
  exact wellFormed_of_encode hdistinct hwritten

end Codec

end DataCatalog
