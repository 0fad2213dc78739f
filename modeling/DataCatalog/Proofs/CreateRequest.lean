import DataCatalog.Proofs.Canonical
import DataCatalog.Proofs.Encodable
import DataCatalog.Proofs.Representation
import DataCatalog.Proofs.Requests
import DataCatalog.Proofs.RoundTrip

/-!
# Requests to create a dataset

A dataset may be created exactly when it has neither of the keys that the server assigns and no extra
fields.  The names that a request may carry are among those of a dataset's own members, which no
extra field has; so every extra field is refused, and of the named fields only the two keys are.
What remains has no extra fields that could make it look like a metadata entry, and so the body of a
request is read back as the dataset, up to the canonical form of the extra fields of its locations.
-/

namespace DataCatalog

namespace Dataset

/-- The metadata of the dataset and of its locations. -/
def mappings (d : Dataset) : List Metadata :=
  d.toRecord.metadataOf Shape.dataset.fields ++
    d.locations.flatMap fun location => location.metadataOf Shape.location.fields

/-- The keys for which the dataset may not be created, in the order in which they are written. -/
def forbidden (d : Dataset) : List String :=
  ([Field.pk, .parentPk].filter fun f => (d.get? f).isSome).map Field.key ++
    Entries.keys d.extras.entries

theorem forbidden_eq_nil_iff {d : Dataset} :
    d.forbidden = [] ↔ d.get? .pk = none ∧ d.get? .parentPk = none ∧ d.extras.entries = [] := by
  simp [forbidden, Entries.keys, List.filter_eq_nil_iff, and_assoc]

/-! ## Members that a request may not carry -/

theorem fields_not_creatable :
    Shape.dataset.fields.filter (fun f => !creatable.contains f.key) = [.pk, .parentPk] := by
  decide

theorem not_creatable_of_extra (d : Dataset) {key : String}
    (h : key ∈ Entries.keys d.extras.entries) : key ∉ creatable := by
  have hreserved : ∀ name ∈ creatable, name ∈ Shape.dataset.reserved := by decide
  exact fun hmem => d.extras.allowed key h (hreserved key hmem)

theorem filter_presentKeys (d : Dataset) :
    d.toRecord.presentKeys.filter (!creatable.contains ·) =
      ([Field.pk, .parentPk].filter fun f => (d.get? f).isSome).map Field.key := by
  rw [Record.presentKeys, List.filter_map, List.filter_comm, ← fields_not_creatable]
  rfl

/-- The members that a request may not carry are those of the forbidden keys. -/
theorem filter_keys_of_encodeDataset {d : Dataset} {c : Codec} {members : List (String × Json)}
    (h : c.encodeDataset d = .ok members) :
    (Entries.keys members).filter (!creatable.contains ·) = d.forbidden := by
  have hkeys : Entries.keys members =
      (Entity.dataset d).presentKeys ++ Entries.keys d.extras.entries :=
    (Codec.writesExactly_of_encodeBody (e := .dataset d) h).keys
  have hplaced : (if d.locations = [] then [] else [Shape.locationsKey]).filter
      (!creatable.contains ·) = [] := by
    split
    · rfl
    · decide
  have hextras : (Entries.keys d.extras.entries).filter (!creatable.contains ·) =
      Entries.keys d.extras.entries := by
    rw [List.filter_eq_self]
    intro key hkey
    simpa using d.not_creatable_of_extra hkey
  rw [hkeys, Entity.presentKeys, List.filter_append, List.filter_append, filter_presentKeys,
    hplaced, hextras, List.append_nil, forbidden]

theorem createRequest_of_encodeDataset {d : Dataset} {c : Codec} {members : List (String × Json)}
    (h : c.encodeDataset d = .ok members) :
    d.createRequest c =
      match d.forbidden with
      | [] => .ok (.object members)
      | first :: rest =>
        .error ((Cause.forbiddenFields (first :: rest) creatable).atField first) := by
  rw [createRequest, h, ok_bind, checkCreatable, filter_keys_of_encodeDataset h]
  cases d.forbidden <;> rfl

end Dataset

namespace Codec

variable {c : Codec} {s : Shape} {d : Dataset}

/-! ## Datasets with written metadata -/

theorem encodeNamed_succeeds_of_metadataOf {r : Record s} {fields : List Field}
    (h : ∀ m ∈ r.metadataOf fields, Succeeds (c.encodeMetadata m)) :
    Succeeds (c.encodeNamed r fields) := by
  cases hwritten : c.encodeNamed r fields with
  | ok members => exact ⟨members, rfl⟩
  | error e =>
      obtain ⟨values, hvalues⟩ := Succeeds.mapM h
      rw [encodeNamed_eq_error_iff.mp hwritten] at hvalues
      cases hvalues

/-- A dataset is written if its metadata and that of its locations are. -/
theorem encodeDataset_succeeds_of_mappings
    (h : ∀ m ∈ d.mappings, Succeeds (c.encodeMetadata m)) : Succeeds (c.encodeDataset d) := by
  obtain ⟨hown, hplaced⟩ := List.forall_mem_append.mp h
  have hnamed : Succeeds (c.encodeNamed d.toRecord Shape.dataset.fields) :=
    encodeNamed_succeeds_of_metadataOf hown
  have hlocations : Succeeds (c.encodeLocations d.locations) := by
    refine encodeLocations_succeeds fun location hmem => ?_
    have hfields : Succeeds (c.encodeNamed location Shape.location.fields) :=
      encodeNamed_succeeds_of_metadataOf fun m hm =>
        hplaced m (List.mem_flatMap.mpr ⟨location, hmem, hm⟩)
    exact hfields.map _
  exact hnamed.bind fun named _ => hlocations.bind fun locations _ => ⟨_, rfl⟩

/-! ## Reading the body of a request -/

/-- The codec that takes an object without a tag for a dataset. -/
def forDatasets (c : Codec) : Codec :=
  { c with defaultKind := some .dataset }

theorem decode_of_encodeDataset (hcoherent : c.types.Coherent) {members : List (String × Json)}
    (h : c.encodeDataset d = .ok members) (hextras : d.extras.entries = []) :
    c.forDatasets.decode (.object members) =
      (c.forDatasets.canonicalDataset d).map fun e => .entity (.dataset e) := by
  have hwritten : c.forDatasets.encodeBody (.dataset d) = .ok members :=
    (encodeDataset_defaultKind (some .dataset) c.defaultKind d).trans h
  have hother : ¬c.forDatasets.ShowsTriple (Entity.dataset d).extraFields := by
    rintro ⟨⟨key, hkey⟩, -⟩
    rw [Entity.extraFields, hextras] at hkey
    cases hkey
  rw [decode_of_encodeBody (c := c.forDatasets) hcoherent rfl hwritten hother, canonicalEntity,
    map_map]

theorem same_read_iff (hcoherent : c.types.Coherent) {members : List (String × Json)}
    (h : c.encodeDataset d = .ok members) (hextras : d.extras.entries = []) :
    (∃ e, c.forDatasets.decode (.object members) = .ok (.entity (.dataset e)) ∧
        e.same d = true) ↔
      ∀ location ∈ d.locations, c.forDatasets.KeepsExtras location.extras.entries := by
  have hwritten : c.forDatasets.encodeDataset d = .ok members :=
    (encodeDataset_defaultKind (some .dataset) c.defaultKind d).trans h
  have hkeeps : c.forDatasets.Keeps (.dataset d) ↔
      ∀ location ∈ d.locations, c.forDatasets.KeepsExtras location.extras.entries := by
    simp [Keeps, KeepsExtras, Entity.extraFields, Entity.locations, hextras]
  rw [← hkeeps, ← same_canonicalDataset_iff hwritten,
    decode_of_encodeDataset hcoherent h hextras]
  simp [map_eq_ok_iff]

end Codec

namespace Dataset

/-- A dataset whose metadata has a written form may be created exactly when it has no key, no key of
a parent and no extra fields; else all that stands in the way is named at once.  The body of the
request is read back as the same dataset exactly when the canonical forms of the extra fields of its
locations are the same as before, and it is read back as it was if they are as before. -/
theorem createRequest_exact (c : Codec) (d : Dataset)
    (hwritten : ∀ m ∈ d.mappings, Succeeds (c.encodeMetadata m)) :
    (Succeeds (d.createRequest c) ↔
        d.get? .pk = none ∧ d.get? .parentPk = none ∧ d.extras.entries = []) ∧
      (¬Succeeds (d.createRequest c) → ∃ e first, d.createRequest c = .error e ∧
        d.forbidden.head? = some first ∧ e.kind = .usage ∧ e.field = some first ∧
        e.cause = .forbiddenFields d.forbidden creatable ∧
        e.report.message = some ("fields not allowed when creating a dataset: " ++
          ", ".intercalate d.forbidden)) ∧
      (c.types = .standard → ∀ body, d.createRequest c = .ok body →
        ((∃ e, c.forDatasets.decode body = .ok (.entity (.dataset e)) ∧ e.same d = true) ↔
          ∀ location ∈ d.locations, c.forDatasets.KeepsExtras location.extras.entries) ∧
        ((∀ location ∈ d.locations, ∀ entry ∈ location.extras.entries,
            c.forDatasets.canonicalExtra entry.1 entry.2 = .ok entry.2) →
          c.forDatasets.decode body = .ok (.entity (.dataset d)))) := by
  obtain ⟨members, hmembers⟩ := Codec.encodeDataset_succeeds_of_mappings hwritten
  have hrequest := createRequest_of_encodeDataset hmembers
  cases hforbidden : d.forbidden with
  | nil =>
      rw [hforbidden] at hrequest
      have hallowed := forbidden_eq_nil_iff.mp hforbidden
      have hsucceeds : Succeeds (d.createRequest c) := ⟨_, hrequest⟩
      refine ⟨iff_of_true hsucceeds hallowed, fun hfails => absurd hsucceeds hfails, ?_⟩
      intro hstandard body hbody
      have hcoherent : c.types.Coherent := hstandard ▸ TypeTable.coherent_standard
      cases hrequest.symm.trans hbody
      refine ⟨Codec.same_read_iff hcoherent hmembers hallowed.2.2, fun hfixed => ?_⟩
      have hown : ∀ entry ∈ d.extras.entries,
          c.forDatasets.canonicalExtra entry.1 entry.2 = .ok entry.2 := by
        simp [hallowed.2.2]
      rw [Codec.decode_of_encodeDataset hcoherent hmembers hallowed.2.2,
        Codec.canonicalDataset_of_fixed hown hfixed, map_ok]
  | cons first rest =>
      rw [hforbidden] at hrequest
      have hfails : ¬Succeeds (d.createRequest c) := by
        rintro ⟨body, hbody⟩
        cases hrequest.symm.trans hbody
      have hrefused : ¬(d.get? .pk = none ∧ d.get? .parentPk = none ∧ d.extras.entries = []) := by
        rw [← forbidden_eq_nil_iff, hforbidden]
        exact List.cons_ne_nil first rest
      refine ⟨iff_of_false hfails hrefused, fun _ => ?_, fun _ body hbody => ?_⟩
      · exact ⟨_, first, hrequest, rfl, rfl, rfl, rfl, rfl⟩
      · exact absurd ⟨body, hbody⟩ hfails

/-- A dataset with metadata and a location is created and read back; the key of its parent and an
extra field are refused together. -/
theorem createRequest_exact_placed :
    let c : Codec := ⟨.standard, some .folder⟩
    let m : Metadata := .ofList [("run", .integer 5)]
    let site : Location := .ofEdits [.set .site (by decide) "SLAC", .extra "rank" (.ofInt64 2)]
    let placed : List (Edit .dataset) := [.set .name (by decide) "muons",
      .set .versionMetadata (by decide) m, .addLocation rfl site]
    let owned : List (Edit .dataset) :=
      [.extra "source" (.string "RAW"), .set .parentPk (by decide) (3 : Int64)]
    (∃ body, (ofEdits placed).createRequest c = .ok body ∧
        c.forDatasets.decode body = .ok (.entity (.dataset (ofEdits placed)))) ∧
      ∃ e, (ofEdits (placed ++ owned)).createRequest c = .error e ∧ e.kind = .usage ∧
        e.field = some "parentPk" ∧ e.cause = .forbiddenFields ["parentPk", "source"] creatable := by
  intro c m site placed owned
  have hwritten : ∀ n ∈ [m], Succeeds (c.encodeMetadata n) :=
    List.forall_mem_singleton.mpr ⟨_, rfl⟩
  constructor
  · obtain ⟨haccepted, -, hread⟩ := createRequest_exact c (ofEdits placed) hwritten
    obtain ⟨body, hbody⟩ := haccepted.mpr ⟨rfl, rfl, rfl⟩
    refine ⟨body, hbody, (hread rfl body hbody).2 ?_⟩
    refine List.forall_mem_singleton.mpr (List.forall_mem_singleton.mpr ?_)
    rfl
  · obtain ⟨haccepted, hrefused, -⟩ := createRequest_exact c (ofEdits (placed ++ owned)) hwritten
    have hparent : (ofEdits (placed ++ owned)).get? .parentPk = some (3 : Int64) := rfl
    have hfails : ¬Succeeds ((ofEdits (placed ++ owned)).createRequest c) := by
      rw [haccepted, hparent]
      rintro ⟨-, hnone, -⟩
      cases hnone
    obtain ⟨e, first, he, hfirst, hkind, hfield, hcause, -⟩ := hrefused hfails
    have hforbidden : (ofEdits (placed ++ owned)).forbidden = ["parentPk", "source"] := rfl
    rw [hforbidden] at hfirst hcause
    cases hfirst
    exact ⟨e, he, hkind, hfield, hcause⟩

end Dataset

end DataCatalog
