import DataCatalog.Proofs.Representation

/-!
# What is written of an object that was read

An object that is read as an entry is written again as an object.  A member of a named field stands
in what is written exactly when its value carries information, and so do the locations of a dataset;
an extra field stands there in its canonical form.  A member that carries information is never
dropped, because neither a field nor a canonical form loses it.
-/

namespace DataCatalog

variable {s : Shape}

/-! ## Keys of a built entry -/

theorem Shape.mem_ownKeys {key : String} :
    key ∈ s.ownKeys ↔ (∃ f ∈ s.fields, f.key = key) ∨ s = .dataset ∧ key = locationsKey := by
  by_cases hdataset : s = .dataset <;> simp [ownKeys, hdataset]

theorem Shape.mem_reserved {key : String} : key ∈ s.reserved ↔ key = tagKey ∨ key ∈ s.ownKeys :=
  List.mem_cons

theorem Record.field_mem_presentKeys {r : Record s} {f : Field} (has : f ∈ s.fields) :
    f.key ∈ r.presentKeys ↔ (r.get? f).isSome := by
  constructor
  · intro hmem
    obtain ⟨g, hg, hkey⟩ := List.mem_map.mp hmem
    cases Field.key_injective hkey
    exact (List.mem_filter.mp hg).2
  · intro hsome
    exact List.mem_map_of_mem (List.mem_filter.mpr ⟨has, hsome⟩)

theorem Record.field_mem_presentKeys_ofEdits {f : Field} (has : f ∈ s.fields)
    (edits : List (Edit s)) :
    f.key ∈ (ofEdits edits).presentKeys ↔
      ((Edit.lastValue? f edits).filter f.type.truthy).isSome := by
  rw [field_mem_presentKeys has, (reflects_ofEdits edits).named f]

namespace Entity

theorem kind_build (kind : EntityKind) (edits : List (Edit kind.shape)) :
    (build kind edits).kind = kind := by
  cases kind <;> rfl

theorem field_mem_presentKeys_dataset {f : Field} (has : f ∈ Shape.dataset.fields)
    (edits : List (Edit .dataset)) :
    f.key ∈ (dataset (.ofEdits edits)).presentKeys ↔
      ((Edit.lastValue? f edits).filter f.type.truthy).isSome := by
  have hplace : f.key ∉ if (Dataset.ofEdits edits).locations = [] then []
      else [Shape.locationsKey] := by
    split
    · exact List.not_mem_nil
    · cases f <;> decide
  rw [presentKeys, List.mem_append, or_iff_left hplace, Dataset.toRecord_ofEdits]
  exact Record.field_mem_presentKeys_ofEdits has edits

theorem field_mem_presentKeys_build {kind : EntityKind} {f : Field} (has : f ∈ kind.shape.fields)
    (edits : List (Edit kind.shape)) :
    f.key ∈ (build kind edits).presentKeys ↔
      ((Edit.lastValue? f edits).filter f.type.truthy).isSome := by
  cases kind with
  | dataset => exact field_mem_presentKeys_dataset has edits
  | folder => exact Record.field_mem_presentKeys_ofEdits has edits
  | group => exact Record.field_mem_presentKeys_ofEdits has edits
  | location => exact Record.field_mem_presentKeys_ofEdits has edits

theorem locationsKey_mem_presentKeys_dataset (edits : List (Edit .dataset)) :
    Shape.locationsKey ∈ (dataset (.ofEdits edits)).presentKeys ↔ Edit.placed edits ≠ [] := by
  have hfield : Shape.locationsKey ∉ (Dataset.ofEdits edits).toRecord.presentKeys := by
    intro hmem
    exact absurd ((Dataset.ofEdits edits).toRecord.presentKeys_sublist.subset hmem) (by decide)
  rw [presentKeys, List.mem_append, or_iff_right hfield, Dataset.locations_ofEdits]
  split <;> simp [*]

theorem reflects_extraFields (kind : EntityKind) (edits : List (Edit kind.shape)) :
    (∀ key, Entries.get? key (build kind edits).extraFields = Edit.lastExtra? key edits) ∧
      Entries.keys (build kind edits).extraFields =
        (Entries.keys (Edit.givenExtras edits)).eraseDups := by
  have hreflects := reflects_build kind edits
  cases kind with
  | dataset => exact ⟨hreflects.1.extraValue, hreflects.1.extraKeys⟩
  | folder => exact ⟨hreflects.extraValue, hreflects.extraKeys⟩
  | group => exact ⟨hreflects.extraValue, hreflects.extraKeys⟩
  | location => exact ⟨hreflects.extraValue, hreflects.extraKeys⟩

end Entity

/-! ## Values that carry information -/

theorem OrderedMap.entries_insertAll_ne_nil {α : Type} {m : OrderedMap α} (h : m.entries ≠ [])
    (entries : List (String × α)) : (m.insertAll entries).entries ≠ [] := by
  induction entries generalizing m with
  | nil => exact h
  | cons entry rest ih =>
      apply ih
      intro hnil
      have hmem : entry.1 ∈ Entries.keys (Entries.put entry.1 entry.2 m.entries) :=
        Entries.mem_keys_put.mpr (.inl rfl)
      rw [show Entries.put entry.1 entry.2 m.entries = [] from hnil] at hmem
      cases hmem

theorem Metadata.truthy_ofList (entries : List (String × Scalar)) :
    truthy (.ofList entries) = !entries.isEmpty := by
  cases entries with
  | nil => rfl
  | cons entry rest =>
      have hne : (OrderedMap.ofList (entry :: rest)).entries ≠ [] :=
        OrderedMap.entries_insertAll_ne_nil (m := OrderedMap.empty.insert entry.1 entry.2)
          (List.cons_ne_nil _ _) rest
      simp [truthy, OrderedMap.isEmpty, hne]

theorem Json.Number.eq_zero_of_toInt64? {n : Json.Number} (h : n.toInt64? = some 0) :
    n.isZero = true := by
  cases n with
  | float x => cases h
  | integer value lower upper =>
      simp only [toInt64?, Option.ite_none_right_eq_some, Option.some.injEq] at h
      obtain ⟨hbound, hzero⟩ := h
      have hvalue : (Int64.ofInt value).toInt = value :=
        Int64.toInt_ofInt_of_le lower hbound
      rw [hzero] at hvalue
      simp [isZero, ← hvalue]

namespace Codec

variable {c : Codec}

theorem isEmpty_eq_of_mapM {α β : Type} {f : α → Except Error β} {xs : List α} {ys : List β}
    (h : xs.mapM f = .ok ys) : ys.isEmpty = xs.isEmpty := by
  cases mapM_eq_ok_iff.mp h <;> rfl

/-- Metadata carries information exactly when the value from which it is read does. -/
theorem truthy_of_readMetadata {field : String} {value : Json} {m : Metadata}
    (h : c.readMetadata field value = .ok m) : Metadata.truthy m = value.truthy := by
  cases value with
  | null =>
      cases h
      rfl
  | array items =>
      obtain ⟨entries, hentries, rfl⟩ := map_eq_ok_iff.mp h
      rw [Metadata.truthy_ofList, isEmpty_eq_of_mapM hentries, Json.truthy]
  | object members =>
      obtain ⟨entries, hentries, rfl⟩ := map_eq_ok_iff.mp h
      rw [Metadata.truthy_ofList, isEmpty_eq_of_mapM hentries, Json.truthy]
  | bool value => cases h
  | number value => cases h
  | string value => cases h

theorem falsy_of_readInteger {field : String} {value : Json} {n? : Option Int64}
    (h : readInteger field value = .ok n?) (hnone : ∀ n, n? = some n → n = 0) :
    value.truthy = false := by
  unfold readInteger at h
  split at h
  · rfl
  · next n =>
      split at h
      · next i hi =>
          cases h
          rw [hnone i rfl] at hi
          simp [Json.truthy, Json.Number.eq_zero_of_toInt64? hi]
      · cases h
  · cases h

theorem falsy_of_readText {field : String} {value : Json} {t? : Option String}
    (h : readText field value = .ok t?) (hnone : ∀ t, t? = some t → t = "") :
    value.truthy = false := by
  unfold readText at h
  split at h
  · rfl
  · next t =>
      cases h
      rw [hnone t rfl]
      rfl
  · cases h

/-- A named field is empty only if the value of its member carries no information. -/
theorem falsy_of_readField {field : String} {type : FieldType} {value : Json}
    {v? : Option type.Value} (h : c.readField field type value = .ok v?)
    (hnone : v?.filter type.truthy = none) : value.truthy = false := by
  have hfalsy : ∀ v, v? = some v → type.truthy v = false := by
    rintro v rfl
    simpa using hnone
  cases type with
  | integer => exact falsy_of_readInteger h fun n hn => by simpa [FieldType.truthy] using hfalsy n hn
  | text => exact falsy_of_readText h fun t ht => by simpa [FieldType.truthy] using hfalsy t ht
  | metadata =>
      obtain ⟨m, hm, hv⟩ := map_eq_ok_iff.mp h
      rw [← truthy_of_readMetadata hm]
      by_cases htruthy : Metadata.truthy m = true
      · rw [if_pos htruthy] at hv
        exact absurd htruthy (by simpa [FieldType.truthy] using hfalsy m hv.symm)
      · exact Bool.eq_false_iff.mpr htruthy

theorem truthy_of_encodeMetadata {m : Metadata} {value : Json} (hm : Metadata.truthy m = true)
    (h : c.encodeMetadata m = .ok value) : value.truthy = true := by
  have hfield : FieldType.truthy .metadata m = true := hm
  have hvalue : c.encodeValue .metadata m = .ok value := h
  exact truthy_of_encodeValue hfield hvalue

/-- The canonical form of a value that carries information carries information. -/
theorem truthy_of_canonical {value : Json} {d : Decoded} {kept : Json}
    (htruthy : value.truthy = true) (hread : c.decode value = .ok d)
    (hkept : c.canonical d = .ok kept) : kept.truthy = true := by
  have hplain : value.Plain → kept.truthy = true := by
    intro hplain
    rw [decode_plain c hplain] at hread
    cases hread
    cases hkept
    exact htruthy
  cases value with
  | array items =>
      rw [decode_array] at hread
      obtain ⟨values, hvalues, rfl⟩ := map_eq_ok_iff.mp hread
      rw [canonical, canonicalAll_eq_mapM] at hkept
      obtain ⟨forms, hforms, rfl⟩ := map_eq_ok_iff.mp hkept
      rw [Json.truthy, isEmpty_eq_of_mapM hforms, isEmpty_eq_of_mapM hvalues]
      exact htruthy
  | object members =>
      rcases decode_object_cases hread with ⟨entry, -, -, rfl⟩ | ⟨kind, edits, -, -, rfl⟩
      · obtain ⟨tag, scalar, -, -, rfl⟩ := encodeTriple_eq_ok_iff.mp hkept
        rfl
      · obtain ⟨body, -, rfl⟩ := map_eq_ok_iff.mp hkept
        rfl
  | null => exact hplain trivial
  | bool value => exact hplain trivial
  | number value => exact hplain trivial
  | string value => exact hplain trivial

theorem truthy_of_canonicalExtra {key : String} {value kept : Json}
    (htruthy : value.truthy = true) (h : c.canonicalExtra key value = .ok kept) :
    kept.truthy = true := by
  unfold canonicalExtra at h
  split at h
  · obtain ⟨m, hm, hkept⟩ := bind_eq_ok_iff.mp h
    have hmetadata : Metadata.truthy m = true := (truthy_of_readMetadata hm).trans htruthy
    rw [storedMetadata, if_pos hmetadata] at hkept
    exact truthy_of_encodeMetadata hmetadata hkept
  · cases hread : c.decode value with
    | error e =>
        rw [hread] at h
        cases h
    | ok d =>
        rw [hread] at h
        exact truthy_of_canonical htruthy hread h

/-- A plain value that carries information is its own canonical form; it is never metadata. -/
theorem canonicalExtra_of_plain {key : String} {value kept : Json} (hplain : value.Plain)
    (htruthy : value.truthy = true) (h : c.canonicalExtra key value = .ok kept) :
    kept = value := by
  unfold canonicalExtra at h
  split at h
  · obtain ⟨m, hm, -⟩ := bind_eq_ok_iff.mp h
    cases value with
    | null => cases htruthy
    | bool value => cases hm
    | number value => cases hm
    | string value => cases hm
    | array items => cases hplain
    | object members => cases hplain
  · rw [decode_plain c hplain] at h
    cases h
    rfl

theorem falsy_of_readLocations {value : Json} (h : c.readLocations value = .ok []) :
    value.truthy = false := by
  cases value with
  | null => rfl
  | array items =>
      rw [readLocations, readLocationItems_eq_mapM] at h
      rw [Json.truthy, ← isEmpty_eq_of_mapM h]
      rfl
  | bool value => cases h
  | number value => cases h
  | string value => cases h
  | object members => cases h

/-! ## Reading and writing again -/

theorem get?_locations_of_encodeDataset {d : Dataset} {members : List (String × Json)}
    (h : c.encodeDataset d = .ok members) (hne : d.locations ≠ []) :
    ∃ forms, d.locations.mapM (fun location => (c.encodeRecord location).map Json.object) =
        .ok forms ∧ Entries.get? Shape.locationsKey members = some (.array forms) := by
  obtain ⟨named, hnamed, locations, hlocations, rfl⟩ := encodeDataset_eq_ok_iff.mp h
  rcases encodeLocations_eq_ok_iff.mp hlocations with ⟨hnil, -⟩ | ⟨-, forms, hforms, rfl⟩
  · exact absurd hnil hne
  · refine ⟨forms, hforms, ?_⟩
    have hfield : Shape.locationsKey ∉ Entries.keys named := by
      intro hmem
      obtain ⟨f, -, hkey⟩ := mem_keys_of_encodeNamed hnamed hmem
      cases f <;> exact absurd hkey (by decide)
    rw [List.append_assoc, Entries.get?_append_of_not_mem hfield]
    simp [Entries.get?]

/-- The members of an object are read as edits, and the entry that these build is written. -/
structure Rewrites (c : Codec) (kind : EntityKind) (members : List (String × Json))
    (edits : List (Edit kind.shape)) (written : List (String × Json)) : Prop where
  distinct : (Entries.keys members).Nodup
  read : c.readMembers kind.shape members = .ok edits
  write : c.encodeBody (.build kind edits) = .ok written

namespace Rewrites

variable {kind : EntityKind} {members written : List (String × Json)}
  {edits : List (Edit kind.shape)} {key : String} {value : Json}

theorem keys_eq (h : c.Rewrites kind members edits written) :
    Entries.keys written = (Entity.build kind edits).presentKeys ++
      Entries.keys (Entity.build kind edits).extraFields :=
  (writesExactly_of_encodeBody h.write).keys

theorem mem_keys_iff_of_own (h : c.Rewrites kind members edits written)
    (hkey : key ∈ kind.shape.ownKeys) :
    key ∈ Entries.keys written ↔ key ∈ (Entity.build kind edits).presentKeys := by
  rw [h.keys_eq, List.mem_append, or_iff_left]
  intro hextra
  rw [← Entity.kind_build kind edits] at hkey
  exact (Entity.build kind edits).disjoint_ownKeys hextra hkey

/-- A named field is written exactly when its value carries information. -/
theorem field_mem_keys_iff (h : c.Rewrites kind members edits written) {f : Field}
    (has : f ∈ kind.shape.fields) :
    f.key ∈ Entries.keys written ↔
      ((Edit.lastValue? f edits).filter f.type.truthy).isSome := by
  rw [h.mem_keys_iff_of_own (Shape.mem_ownKeys.mpr (.inl ⟨f, has, rfl⟩)),
    Entity.field_mem_presentKeys_build has]

theorem locationsKey_mem_keys_iff {edits : List (Edit .dataset)}
    (h : c.Rewrites .dataset members edits written) :
    Shape.locationsKey ∈ Entries.keys written ↔ Edit.placed edits ≠ [] :=
  (h.mem_keys_iff_of_own (Shape.mem_ownKeys.mpr (.inr ⟨rfl, rfl⟩))).trans
    (Entity.locationsKey_mem_presentKeys_dataset edits)

theorem get?_of_extra (h : c.Rewrites kind members edits written)
    (hkey : key ∉ kind.shape.ownKeys) :
    Entries.get? key written = Edit.lastExtra? key edits := by
  have hown : key ∉ (Entity.build kind edits).kind.shape.ownKeys := by
    rwa [Entity.kind_build]
  rw [get?_of_encodeBody h.write hown, (Entity.reflects_extraFields kind edits).1]

/-- An extra field that carries information is written in its canonical form. -/
theorem exists_kept (h : c.Rewrites kind members edits written) (hkey : key ∉ kind.shape.reserved)
    (hmem : (key, value) ∈ members) (htruthy : value.truthy = true) :
    ∃ kept, c.canonicalExtra key value = .ok kept ∧ Entries.get? key written = some kept := by
  obtain ⟨kept, hkept, hlast⟩ := lastExtra?_of_mem hkey h.distinct h.read hmem
  refine ⟨kept, hkept, ?_⟩
  rw [h.get?_of_extra fun hown => hkey (Shape.mem_reserved_of_mem_ownKeys hown), hlast,
    if_pos (truthy_of_canonicalExtra htruthy hkept)]

/-- The locations of a dataset are written one by one. -/
theorem exists_locations {edits : List (Edit .dataset)}
    (h : c.Rewrites .dataset members edits written)
    (hmem : (Shape.locationsKey, value) ∈ members) (htruthy : value.truthy = true) :
    ∃ items forms, c.readLocations value = .ok items ∧
      items.mapM (fun location => (c.encodeRecord location).map Json.object) = .ok forms ∧
      Entries.get? Shape.locationsKey written = some (.array forms) := by
  have hread : c.readLocations value = .ok (Edit.placed edits) :=
    placed_of_mem h.distinct h.read hmem
  have hne : Edit.placed edits ≠ [] := by
    intro hnil
    rw [hnil] at hread
    rw [falsy_of_readLocations hread] at htruthy
    cases htruthy
  rw [← Dataset.locations_ofEdits] at hread hne
  obtain ⟨forms, hforms, hget⟩ := get?_locations_of_encodeDataset h.write hne
  exact ⟨_, forms, hread, hforms, hget⟩

end Rewrites

end Codec

end DataCatalog
