import DataCatalog.Proofs.Reader
import DataCatalog.Proofs.Rounding

/-!
# Everything that is read can be written

Writing fails on a double that is not finite and on a scalar whose type has no tag.  A table that
has a tag for every type leaves the first cause alone.  Reading brings in finite doubles only: the
numbers of a document are finite, whole numbers of 64 bits round to finite doubles, and a text that
names an infinity is refused.
-/

namespace DataCatalog

/-- There is a tag for every type. -/
def TypeTable.Complete (table : TypeTable) : Prop :=
  ∀ kind, ∃ tag, table.tagFor? kind = some tag

theorem TypeTable.complete_standard : standard.Complete := by
  intro kind
  cases kind <;> exact ⟨_, rfl⟩

/-! ## Finite values -/

/-- The scalar is no infinity, and not the value that is no number. -/
def Scalar.IsFinite : Scalar → Prop
  | .decimal x => x.isFinite = true
  | _ => True

def Metadata.IsFinite (m : Metadata) : Prop :=
  ∀ entry ∈ m.entries, entry.2.IsFinite

def FieldType.IsFinite : (type : FieldType) → type.Value → Prop
  | .metadata, (m : Metadata) => m.IsFinite
  | _, _ => True

/-- Metadata in named fields is finite. -/
def FieldRule.finite : FieldRule where
  named f value := f.type.IsFinite value
  extra _ _ := True

/-- Every double in the value is finite. -/
inductive Decoded.IsFinite : Decoded → Prop
  | entity {e : Entity} (h : e.Obeys .finite) : IsFinite (.entity e)
  | pair {key : String} {s : Scalar} (h : s.IsFinite) : IsFinite (.pair key s)
  | list {items : List Decoded} (h : ∀ item ∈ items, IsFinite item) : IsFinite (.list items)
  | json (value : Json) : IsFinite (.json value)

/-! ## Finite values are written -/

namespace Codec

theorem encodeScalar_succeeds {s : Scalar} (h : s.IsFinite) : Succeeds (encodeScalar s) := by
  cases s with
  | integer n => exact ⟨_, rfl⟩
  | text s => exact ⟨_, rfl⟩
  | decimal x =>
      cases x with
      | finite x => exact ⟨_, rfl⟩
      | nan => cases h
      | infinite negative => cases h

variable {c : Codec} {s : Shape}

theorem encodeTriple_succeeds (hcomplete : c.types.Complete) {entry : String × Scalar}
    (h : entry.2.IsFinite) : Succeeds (c.encodeTriple entry) := by
  obtain ⟨tag, htag⟩ := hcomplete entry.2.kind
  obtain ⟨value, hvalue⟩ := encodeScalar_succeeds h
  exact ⟨_, encodeTriple_eq_ok_iff.mpr ⟨tag, value, htag, hvalue, rfl⟩⟩

theorem encodeMetadata_succeeds (hcomplete : c.types.Complete) {m : Metadata}
    (h : m.IsFinite) : Succeeds (c.encodeMetadata m) :=
  (Succeeds.mapM fun entry hentry => encodeTriple_succeeds hcomplete (h entry hentry)).map _

theorem encodeValue_succeeds (hcomplete : c.types.Complete) {type : FieldType}
    {value : type.Value} (h : type.IsFinite value) : Succeeds (c.encodeValue type value) := by
  cases type with
  | integer => exact ⟨_, rfl⟩
  | text => exact ⟨_, rfl⟩
  | metadata => exact encodeMetadata_succeeds hcomplete h

theorem encodeNamed_succeeds (hcomplete : c.types.Complete) {r : Record s} (h : r.Obeys .finite)
    (fields : List Field) : Succeeds (c.encodeNamed r fields) := by
  induction fields with
  | nil => exact ⟨[], rfl⟩
  | cons f rest ih =>
      rw [encodeNamed]
      cases hget : r.get? f with
      | none => exact ih
      | some value =>
          refine (encodeValue_succeeds hcomplete (h.named f value hget)).bind fun encoded _ => ?_
          exact ih.bind fun more _ => ⟨_, rfl⟩

theorem encodeRecord_succeeds (hcomplete : c.types.Complete) {r : Record s} (h : r.Obeys .finite) :
    Succeeds (c.encodeRecord r) :=
  (encodeNamed_succeeds hcomplete h s.fields).map _

theorem encodeLocations_succeeds {locations : List Location}
    (h : ∀ location ∈ locations, Succeeds (c.encodeRecord location)) :
    Succeeds (c.encodeLocations locations) := by
  unfold encodeLocations
  split
  · exact ⟨[], rfl⟩
  · have hitems : Succeeds (locations.mapM fun location =>
        (c.encodeRecord location).map Json.object) :=
      Succeeds.mapM fun location hmem => (h location hmem).map _
    exact hitems.bind fun items _ => ⟨_, rfl⟩

theorem encodeDataset_succeeds (hcomplete : c.types.Complete) {d : Dataset} (h : d.Obeys .finite) :
    Succeeds (c.encodeDataset d) := by
  refine (encodeNamed_succeeds hcomplete h.record _).bind fun named _ => ?_
  have hlocations : Succeeds (c.encodeLocations d.locations) :=
    encodeLocations_succeeds fun location hmem =>
      encodeRecord_succeeds hcomplete (h.locations location hmem)
  exact hlocations.bind fun locations _ => ⟨_, rfl⟩

theorem encodeEntity_succeeds (hcomplete : c.types.Complete) {e : Entity} (h : e.Obeys .finite) :
    Succeeds (c.encodeEntity e) := by
  have hbody : Succeeds (c.encodeBody e) := by
    cases e with
    | dataset d => exact encodeDataset_succeeds hcomplete h
    | folder r => exact encodeRecord_succeeds hcomplete h
    | group r => exact encodeRecord_succeeds hcomplete h
    | location r => exact encodeRecord_succeeds hcomplete h
  exact hbody.map _

theorem encode_succeeds (hcomplete : c.types.Complete) {d : Decoded} (h : d.IsFinite) :
    Succeeds (c.encode d) := by
  induction h with
  | entity h =>
      rw [encode]
      exact encodeEntity_succeeds hcomplete h
  | pair h =>
      rw [encode]
      exact (encodeScalar_succeeds h).map _
  | list h ih =>
      rw [encode, encodeAll_eq_mapM]
      exact (Succeeds.mapM ih).map _
  | json value => exact ⟨value, rfl⟩

theorem canonical_succeeds (hcomplete : c.types.Complete) {d : Decoded} (h : d.IsFinite) :
    Succeeds (c.canonical d) := by
  induction h with
  | entity h =>
      rw [canonical]
      exact encodeEntity_succeeds hcomplete h
  | pair h =>
      rw [canonical]
      exact encodeTriple_succeeds hcomplete h
  | list h ih =>
      rw [canonical, canonicalAll_eq_mapM]
      exact (Succeeds.mapM ih).map _
  | json value => exact ⟨value, rfl⟩

end Codec

/-! ## Only finite values are read -/

/-- The error is one that reading gives rise to: it says that the document is malformed, or that
the type of something is not known, and it concerns no path of the catalog. -/
structure Error.OfReading (e : Error) : Prop where
  kind : e.kind = .malformed ∨ e.kind = .unknownMetadataType ∨ e.kind = .noTypeInformation
  path : e.path = none

theorem Error.OfReading.ne_unsupportedType {e : Error} (h : e.OfReading) :
    e.kind ≠ .unsupportedType := by
  rcases h.kind with hkind | hkind | hkind <;> simp [hkind]

theorem Error.OfReading.orField {e : Error} (h : e.OfReading) (field : String) :
    (e.orField field).OfReading := by
  unfold Error.orField
  split
  · exact h
  · exact ⟨h.kind, h.path⟩

theorem Json.Number.isFinite_toBinary64 (n : Json.Number) : n.toBinary64.isFinite = true := by
  cases n with
  | integer value lower upper =>
      exact Binary64.isFinite_ofInt (by omega)
  | float value => rfl

theorem Scalar.isFinite_of_ofJson? {kind : ScalarKind} {value : Json} {s : Scalar}
    (h : Scalar.ofJson? kind value = some s) : s.IsFinite := by
  unfold Scalar.ofJson? at h
  split at h
  · obtain ⟨n, _, rfl⟩ := Option.map_eq_some_iff.mp h
    trivial
  · obtain ⟨n, _, rfl⟩ := Option.map_eq_some_iff.mp h
    trivial
  · next n =>
      cases h
      exact n.isFinite_toBinary64
  · split at h
    · split at h
      · next hfinite =>
          cases h
          exact hfinite
      · cases h
    · cases h
  · cases h
    trivial
  · cases h
    trivial
  · cases h

theorem Scalar.isFinite_of_infer? {value : Json} {s : Scalar}
    (h : Scalar.infer? value = some s) : s.IsFinite := by
  unfold Scalar.infer? at h
  split at h
  · next n =>
      split at h
      · cases h
        trivial
      · cases h
        exact n.isFinite_toBinary64
  · cases h
    trivial
  · cases h

namespace Codec

variable {c : Codec}

theorem taggedKind_error {members : List (String × Json)} {e : Error}
    (h : taggedKind members = .error e) : e.OfReading := by
  unfold taggedKind at h
  split at h
  · cases h
  · cases h
  · cases h
  · cases h
    exact ⟨.inl rfl, rfl⟩

theorem readTriple_yields (members : List (String × Json)) :
    Yields (fun entry => entry.2.IsFinite) Error.OfReading (c.readTriple members) := by
  unfold readTriple
  split
  · next key _ =>
      split
      · exact ⟨.inr (.inl rfl), rfl⟩
      · next kind _ =>
          dsimp only
          split
          · next s hscalar => exact Scalar.isFinite_of_ofJson? hscalar
          · exact ⟨.inl rfl, rfl⟩
  · exact ⟨.inl rfl, rfl⟩

theorem readPair_yields (field key : String) (value : Json) :
    Yields (fun entry => entry.2.IsFinite) Error.OfReading (readPair field key value) := by
  unfold readPair
  split
  · next s hscalar => exact Scalar.isFinite_of_infer? hscalar
  · exact ⟨.inl rfl, rfl⟩

theorem readEntry_yields (field : String) (value : Json) :
    Yields (fun entry => entry.2.IsFinite) Error.OfReading (c.readEntry field value) := by
  unfold readEntry
  split
  · next members =>
      split
      · exact readTriple_yields members
      · exact ⟨.inr (.inr rfl), rfl⟩
  · exact readPair_yields field _ _
  · exact ⟨.inl rfl, rfl⟩

theorem isFinite_ofList {entries : List (String × Scalar)}
    (h : ∀ entry ∈ entries, entry.2.IsFinite) : Metadata.IsFinite (.ofList entries) :=
  fun entry hentry => h entry (OrderedMap.mem_of_mem_ofList hentry)

theorem readMetadata_yields (field : String) (value : Json) :
    Yields Metadata.IsFinite Error.OfReading (c.readMetadata field value) := by
  unfold readMetadata
  split
  · exact fun entry hentry => nomatch hentry
  · exact (Yields.mapM fun item _ => readEntry_yields field item).map fun _ => isFinite_ofList
  · exact (Yields.mapM fun entry _ => readPair_yields field entry.1 entry.2).map
      fun _ => isFinite_ofList
  · exact ⟨.inl rfl, rfl⟩

theorem readField_yields (field : String) (type : FieldType) (value : Json) :
    Yields (fun value? => ∀ v, value? = some v → type.IsFinite v) Error.OfReading
      (c.readField field type value) := by
  cases type with
  | integer =>
      have hread : Yields (fun _ => True) Error.OfReading (readInteger field value) := by
        unfold readInteger
        split
        · trivial
        · split
          · trivial
          · exact ⟨.inl rfl, rfl⟩
        · exact ⟨.inl rfl, rfl⟩
      exact hread.imp fun _ _ _ _ => trivial
  | text =>
      have hread : Yields (fun _ => True) Error.OfReading (readText field value) := by
        unfold readText
        split
        · trivial
        · trivial
        · exact ⟨.inl rfl, rfl⟩
      exact hread.imp fun _ _ _ _ => trivial
  | metadata =>
      refine (readMetadata_yields field value).map fun m hm v hv => ?_
      split at hv
      · cases hv
        exact hm
      · cases hv

theorem role_error {members : List (String × Json)} {e : Error}
    (h : c.role members = .error e) : e.OfReading := by
  unfold role at h
  split at h
  · next htag =>
      cases h
      exact taggedKind_error htag
  · cases h
  · split at h
    · split at h
      · cases h
      · cases h
        exact ⟨.inr (.inr rfl), rfl⟩
    · split at h
      · cases h
      · cases h

theorem checkLocationTag_error {members : List (String × Json)} {e : Error}
    (h : checkLocationTag members = .error e) : e.OfReading := by
  unfold checkLocationTag at h
  split at h
  · next htag =>
      cases h
      exact taggedKind_error htag
  · cases h
  · cases h
  · cases h
    exact ⟨.inl rfl, rfl⟩

theorem storedMetadata_succeeds (hcomplete : c.types.Complete) {m : Metadata}
    (h : m.IsFinite) : Succeeds (c.storedMetadata m) := by
  unfold storedMetadata
  split
  · exact encodeMetadata_succeeds hcomplete h
  · exact ⟨.null, rfl⟩

/-- A complete table leaves no way to fail but those of reading, and no way to an infinity. -/
theorem finiteReading (hcomplete : c.types.Complete) :
    c.ReadingRules Decoded.IsFinite (Edit.Obeys .finite) Error.OfReading where
  plain _ := .json _
  list hitems := .list hitems
  triple members := (readTriple_yields members).imp fun _ => .pair
  entity kind _ hedits := .entity (Entity.obeys_build kind hedits)
  role := role_error
  field has value := readField_yields _ _ value
  versionMetadata s value := by
    rw [canonicalExtra, if_pos rfl]
    refine (readMetadata_yields _ value).bind fun m hm => ?_
    obtain ⟨stored, hstored⟩ := storedMetadata_succeeds hcomplete hm
    rw [hstored]
    trivial
  extra s key read _ hread := by
    cases read with
    | error e => exact hread.orField key
    | ok d =>
        obtain ⟨stored, hstored⟩ := canonical_succeeds hcomplete hread
        rw [Codec.stored, hstored]
        trivial
  locations hitems location hmem := by
    obtain ⟨edits, rfl, hedits⟩ := hitems location hmem
    exact Record.obeys_ofEdits hedits
  locationTag := checkLocationTag_error
  locationNotObject := ⟨.inl rfl, rfl⟩
  locationsNotArray := ⟨.inl rfl, rfl⟩

/-- With a table that lacks tags there are other errors, but the results are finite all the same. -/
theorem finiteResults (c : Codec) : c.ResultRules Decoded.IsFinite .finite where
  plain _ := .json _
  list hitems := .list hitems
  triple hread := .pair ((readTriple_yields _).result hread)
  entity h := .entity h
  field hread := (readField_yields _ _ _).result hread _ rfl
  versionMetadata _ _ := trivial
  extra _ _ _ := trivial

/-- Reading never fails for want of a written form, and what is read holds finite doubles only and
has a written form. -/
theorem decode_encodable {c : Codec} (hcomplete : c.types.Complete) (value : Json) :
    (∀ e, c.decode value = .error e → e.kind ≠ .unsupportedType) ∧
      ∀ d, c.decode value = .ok d → d.IsFinite ∧ ∃ written, c.encode d = .ok written := by
  have hread : Yields Decoded.IsFinite Error.OfReading (c.decode value) :=
    (finiteReading hcomplete).decode value
  constructor
  · intro e he
    exact (hread.fault he).ne_unsupportedType
  · intro d hd
    have hfinite : d.IsFinite := hread.result hd
    exact ⟨hfinite, encode_succeeds hcomplete hfinite⟩

/-- Doubles come in from a text with blanks around it, from a number that is too large for a whole
number, and from an extra field that is written again while it is read; a text that names an
infinity is refused. -/
theorem decode_encodable_coerced :
    let c : Codec := ⟨.standard, some .folder⟩
    let energy (text : String) : Json := .object (tripleMembers "energy" (.string text) "decimal")
    let events : Json := .number (.integer 18446744073709551615 (by decide) (by decide))
    (∃ d, c.decode (.object [
        ("metadata", .array [energy " 2.5e1 ", .array [.string "events", events]]),
        ("run", energy "1e308")]) = .ok d ∧
      d.IsFinite ∧ ∃ written, c.encode d = .ok written) ∧
    ∃ e, c.decode (.object [("run", energy "inf")]) = .error e ∧
      e.kind ≠ .unsupportedType := by
  intro c energy events
  constructor
  · obtain ⟨d, hd⟩ : Succeeds (c.decode (.object [
        ("metadata", .array [energy " 2.5e1 ", .array [.string "events", events]]),
        ("run", energy "1e308")])) := .of_isOk (by decide +kernel)
    exact ⟨d, hd, (decode_encodable TypeTable.complete_standard _).2 d hd⟩
  · refine ⟨_, rfl, ?_⟩
    exact (decode_encodable (c := c) TypeTable.complete_standard
      (.object [("run", energy "inf")])).1 _ rfl

end Codec

end DataCatalog
