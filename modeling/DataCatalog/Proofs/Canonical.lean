import DataCatalog.Proofs.Rereading

/-!
# The canonical form is a fixed point

What is read and written again is in canonical form: reading it once more, with whatever default
kind, and writing that changes nothing.  The reason is that reading leaves behind only settled
extra fields, those which are their own canonical form under every default kind.  An entry with
settled extra fields is read back as it is; a metadata entry shows its type, by its triple as an
extra field and by its value in a pair; and lists follow item by item.
-/

namespace DataCatalog

/-! ## Writing does not depend on the default kind -/

namespace Codec

variable {types : TypeTable} {s : Shape}

theorem encodeNamed_defaultKind (k k' : Option EntityKind) (r : Record s) (fields : List Field) :
    (Codec.mk types k).encodeNamed r fields = (Codec.mk types k').encodeNamed r fields := by
  induction fields with
  | nil => rfl
  | cons f rest ih =>
      rw [encodeNamed, encodeNamed, ih]
      cases r.get? f <;> rfl

theorem encodeRecord_defaultKind (k k' : Option EntityKind) (r : Record s) :
    (Codec.mk types k).encodeRecord r = (Codec.mk types k').encodeRecord r := by
  rw [encodeRecord, encodeRecord, encodeNamed_defaultKind k k']

theorem encodeDataset_defaultKind (k k' : Option EntityKind) (d : Dataset) :
    (Codec.mk types k).encodeDataset d = (Codec.mk types k').encodeDataset d := by
  simp only [encodeDataset, encodeLocations, encodeNamed_defaultKind k k',
    encodeRecord_defaultKind k k']

theorem encodeBody_defaultKind (k k' : Option EntityKind) (e : Entity) :
    (Codec.mk types k).encodeBody e = (Codec.mk types k').encodeBody e := by
  cases e with
  | dataset d => exact encodeDataset_defaultKind k k' d
  | folder r => exact encodeRecord_defaultKind k k' r
  | group r => exact encodeRecord_defaultKind k k' r
  | location r => exact encodeRecord_defaultKind k k' r

theorem encodeEntity_defaultKind (k k' : Option EntityKind) (e : Entity) :
    (Codec.mk types k).encodeEntity e = (Codec.mk types k').encodeEntity e := by
  rw [encodeEntity, encodeEntity, encodeBody_defaultKind k k']

mutual

theorem canonical_defaultKind (k k' : Option EntityKind) :
    (d : Decoded) → (Codec.mk types k).canonical d = (Codec.mk types k').canonical d
  | .entity e => encodeEntity_defaultKind k k' e
  | .pair _ _ => rfl
  | .list items => by rw [canonical, canonical, canonicalAll_defaultKind k k' items]
  | .json _ => rfl

theorem canonicalAll_defaultKind (k k' : Option EntityKind) :
    (items : List Decoded) →
      (Codec.mk types k).canonicalAll items = (Codec.mk types k').canonicalAll items
  | [] => rfl
  | item :: rest => by
      rw [canonicalAll, canonicalAll, canonical_defaultKind k k' item,
        canonicalAll_defaultKind k k' rest]

end

end Codec

/-! ## Settled extra fields -/

/-- The extra field is its own canonical form, whatever the default kind is. -/
def TypeTable.Settles (types : TypeTable) (key : String) (value : Json) : Prop :=
  ∀ k, (Codec.mk types k).canonicalExtra key value = .ok value

/-- Every extra field is settled. -/
def FieldRule.settled (types : TypeTable) : FieldRule where
  named _ _ := True
  extra key value := types.Settles key value

variable {types : TypeTable}

namespace Codec

variable {c : Codec}

theorem canonicalExtras_of_fixed {entries : List (String × Json)}
    (h : ∀ entry ∈ entries, c.canonicalExtra entry.1 entry.2 = .ok entry.2) :
    c.canonicalExtras entries = .ok entries := by
  rw [canonicalExtras, mapM_eq_ok_iff, List.forall₂_same]
  intro entry hentry
  rw [h entry hentry, map_ok]

theorem canonicalRecord_of_fixed {s : Shape} {r : Record s}
    (h : ∀ entry ∈ r.extras.entries, c.canonicalExtra entry.1 entry.2 = .ok entry.2) :
    c.canonicalRecord r = .ok r := by
  rw [canonicalRecord, canonicalExtras_of_fixed h, map_ok, Record.withExtras_self]

/-- A dataset is its own canonical form if its extra fields and those of its locations are. -/
theorem canonicalDataset_of_fixed {d : Dataset}
    (hextras : ∀ entry ∈ d.extras.entries, c.canonicalExtra entry.1 entry.2 = .ok entry.2)
    (hplaced : ∀ location ∈ d.locations, ∀ entry ∈ location.extras.entries,
      c.canonicalExtra entry.1 entry.2 = .ok entry.2) :
    c.canonicalDataset d = .ok d := by
  have hlocations : d.locations.mapM c.canonicalRecord = .ok d.locations := by
    rw [mapM_eq_ok_iff, List.forall₂_same]
    exact fun location hmem => canonicalRecord_of_fixed (hplaced location hmem)
  rw [canonicalDataset, hlocations, ok_bind, canonicalRecord_of_fixed hextras, ok_bind]

theorem canonicalRecord_of_settled (k : Option EntityKind) {s : Shape} {r : Record s}
    (h : r.Obeys (.settled types)) : (Codec.mk types k).canonicalRecord r = .ok r :=
  canonicalRecord_of_fixed fun entry hentry => h.extras entry hentry k

theorem canonicalDataset_of_settled (k : Option EntityKind) {d : Dataset}
    (h : d.Obeys (.settled types)) : (Codec.mk types k).canonicalDataset d = .ok d :=
  canonicalDataset_of_fixed (fun entry hentry => h.record.extras entry hentry k)
    fun location hmem entry hentry => (h.locations location hmem).extras entry hentry k

/-- An entry with settled extra fields is its own canonical form. -/
theorem canonicalEntity_of_settled (k : Option EntityKind) {e : Entity}
    (h : e.Obeys (.settled types)) : (Codec.mk types k).canonicalEntity e = .ok e := by
  cases e with
  | dataset d => rw [canonicalEntity, canonicalDataset_of_settled k h, map_ok]
  | folder r => rw [canonicalEntity, canonicalRecord_of_settled k h, map_ok]
  | group r => rw [canonicalEntity, canonicalRecord_of_settled k h, map_ok]
  | location r => rw [canonicalEntity, canonicalRecord_of_settled k h, map_ok]

end Codec

/-! ## Values that return -/

/-- What is written of the value is read, with any default kind, as a value of which the same is
written. -/
def Decoded.Returns (types : TypeTable) (write : Codec → Decoded → Except Error Json)
    (d : Decoded) : Prop :=
  ∀ k k' value, write ⟨types, k⟩ d = .ok value →
    ∃ d', (Codec.mk types k').decode value = .ok d' ∧ write ⟨types, k'⟩ d' = .ok value

namespace Decoded.Returns

theorem list {write : Codec → Decoded → Except Error Json} {items : List Decoded}
    (hwrite : ∀ c items, write c (.list items) = (items.mapM (write c)).map .array)
    (h : ∀ item ∈ items, item.Returns types write) :
    (Decoded.list items).Returns types write := by
  intro k k' value hvalue
  rw [hwrite, map_eq_ok_iff] at hvalue
  obtain ⟨values, hvalues, rfl⟩ := hvalue
  have hitems : ∀ v ∈ values, ∃ d', (Codec.mk types k').decode v = .ok d' ∧
      write ⟨types, k'⟩ d' = .ok v := by
    intro v hv
    obtain ⟨item, hitem, hwritten⟩ := exists_mem_of_mapM_eq_ok hvalues hv
    exact h item hitem k k' v hwritten
  obtain ⟨read, hread, hwritten⟩ := exists_mapM_eq_ok hitems
  refine ⟨.list read, ?_, ?_⟩
  · rw [Codec.decode_array, hread, map_ok]
  · rw [hwrite, hwritten, map_ok]

/-- A pair is read back as a list of its key and its value. -/
theorem pair_encode (key : String) (s : Scalar) :
    (Decoded.pair key s).Returns types Codec.encode := by
  -- The second reading no longer knows that this was a pair, but it writes the same.
  intro k k' value hvalue
  rw [Codec.encode, map_eq_ok_iff] at hvalue
  obtain ⟨scalar, hscalar, rfl⟩ := hvalue
  have hread : (Codec.mk types k').decode scalar = .ok (.json scalar) :=
    Codec.decode_plain _ (Codec.plain_of_encodeScalar hscalar)
  refine ⟨.list [.json (.string key), .json scalar], ?_, ?_⟩
  · rw [Codec.decode_array, List.mapM_cons, List.mapM_cons, hread]
    rfl
  · rfl

/-- A triple is read back as such: its tag is known, so no default kind turns it into an entry. -/
theorem pair_canonical (hcoherent : types.Coherent) (key : String) (s : Scalar) :
    (Decoded.pair key s).Returns types Codec.canonical := by
  intro k k' value hvalue
  rw [Codec.canonical] at hvalue
  obtain ⟨tag, scalar, htag, hscalar, rfl⟩ := Codec.encodeTriple_eq_ok_iff.mp hvalue
  have hkind : types.kindFor? tag = some s.kind := hcoherent s.kind tag htag
  have hrole : (Codec.mk types k').role (Codec.tripleMembers key scalar tag) = .ok .triple :=
    Codec.role_tripleMembers hkind
  refine ⟨.pair key s, ?_, hvalue⟩
  rw [Codec.decode_object_of_triple hrole,
    Codec.readTriple_tripleMembers hkind (Codec.ofJson?_of_encodeScalar hscalar), map_ok]

theorem entity {write : Codec → Decoded → Except Error Json} (hcoherent : types.Coherent)
    (hwrite : ∀ c e, write c (.entity e) = c.encodeEntity e) {e : Entity}
    (h : e.Obeys (.settled types)) : (Decoded.entity e).Returns types write := by
  intro k k' value hvalue
  rw [hwrite, Codec.encodeEntity_defaultKind k k'] at hvalue
  refine ⟨.entity e, ?_, by rw [hwrite, hvalue]⟩
  rw [Codec.decode_of_encodeEntity hcoherent hvalue, Codec.canonicalEntity_of_settled k' h, map_ok]

theorem json {write : Codec → Decoded → Except Error Json}
    (hwrite : ∀ c value, write c (.json value) = .ok value) {value : Json} (h : value.Plain) :
    (Decoded.json value).Returns types write := by
  intro k k' written hwritten
  rw [hwrite] at hwritten
  cases hwritten
  exact ⟨.json value, Codec.decode_plain _ h, hwrite _ _⟩

end Decoded.Returns

/-! ## Everything that is read returns -/

/-- The value returns as a document and as an extra field. -/
structure Decoded.Canonical (types : TypeTable) (d : Decoded) : Prop where
  document : d.Returns types Codec.encode
  extra : d.Returns types Codec.canonical

namespace Codec

/-- An extra field that is kept in a form which returns is settled. -/
theorem settles_of_canonical {k : Option EntityKind} {key : String} {d : Decoded} {stored : Json}
    (hversion : key ≠ Field.versionMetadata.key) (h : d.Returns types Codec.canonical)
    (hstored : (Codec.mk types k).canonical d = .ok stored) : types.Settles key stored := by
  intro k'
  obtain ⟨d', hread, hwritten⟩ := h k k' stored hstored
  rw [canonicalExtra, if_neg hversion, hread, Codec.stored, hwritten]

theorem settles_of_storedMetadata (hcoherent : types.Coherent) {k : Option EntityKind}
    {m : Metadata} {stored : Json} (h : (Codec.mk types k).storedMetadata m = .ok stored) :
    types.Settles Field.versionMetadata.key stored := by
  intro k'
  rw [canonicalExtra, if_pos rfl]
  by_cases htruthy : Metadata.truthy m = true
  · rw [storedMetadata, if_pos htruthy] at h
    have hwritten : (Codec.mk types k').encodeMetadata m = .ok stored := h
    rw [readMetadata_of_encodeMetadata hcoherent _ hwritten, ok_bind, storedMetadata,
      if_pos htruthy, hwritten]
  · rw [storedMetadata, if_neg htruthy] at h
    cases h
    rfl

theorem settlingResults (hcoherent : types.Coherent) (k : Option EntityKind) :
    (Codec.mk types k).ResultRules (Decoded.Canonical types) (.settled types) where
  plain hplain := ⟨.json (fun _ _ => rfl) hplain, .json (fun _ _ => rfl) hplain⟩
  list {items} hitems := by
    constructor
    · apply Decoded.Returns.list
      · intro c items
        rw [encode, encodeAll_eq_mapM]
      · exact fun item hitem => (hitems item hitem).document
    · apply Decoded.Returns.list
      · intro c items
        rw [canonical, canonicalAll_eq_mapM]
      · exact fun item hitem => (hitems item hitem).extra
  triple {_ entry} _ :=
    ⟨.pair_encode entry.1 entry.2, .pair_canonical hcoherent entry.1 entry.2⟩
  entity hsettled :=
    ⟨.entity hcoherent (fun _ _ => rfl) hsettled, .entity hcoherent (fun _ _ => rfl) hsettled⟩
  field _ := trivial
  versionMetadata _ hkept := settles_of_storedMetadata hcoherent hkept
  extra hversion hd hkept := settles_of_canonical hversion hd.extra hkept

theorem settlingReading (hcoherent : types.Coherent) (k : Option EntityKind) :
    (Codec.mk types k).ReadingRules (Decoded.Canonical types) (Edit.Obeys (.settled types))
      fun _ => True :=
  (settlingResults hcoherent k).reading

/-- What is read and written again is read, with any default kind, as a value of which exactly the
same is written. -/
theorem decode_canonical (hcoherent : types.Coherent) (k k' : Option EntityKind)
    {value written : Json} {d : Decoded} (hread : (Codec.mk types k).decode value = .ok d)
    (hwritten : (Codec.mk types k).encode d = .ok written) :
    ∃ d', (Codec.mk types k').decode written = .ok d' ∧
      (Codec.mk types k').encode d' = .ok written := by
  have hcanonical : d.Canonical types :=
    ((settlingReading hcoherent k).decode value).result hread
  exact hcanonical.document k k' written hwritten

/-- An object without a tag is read as a folder, which is then written with its tag, and so is the
object in its extra field; the metadata entry inside is read from a text and written as a number. -/
theorem decode_canonical_untagged :
    let named : Codec := ⟨.standard, some .folder⟩
    let bare : Codec := ⟨.standard, none⟩
    let value : Json := .object [("name", .string "run"),
      ("versionMetadata", .array [.array [.string "pass", .ofInt64 3]]),
      ("detector", .object [("layers", .object (tripleMembers "count" (.string "7") "integer")),
        ("off", .bool false)])]
    ∃ d written, named.decode value = .ok d ∧ named.encode d = .ok written ∧
      ∃ d', bare.decode written = .ok d' ∧ bare.encode d' = .ok written := by
  intro named bare value
  have hread : named.decode value = .ok _ := rfl
  refine ⟨_, _, hread, rfl, ?_⟩
  exact decode_canonical TypeTable.coherent_standard (some .folder) none hread rfl

end Codec

end DataCatalog
