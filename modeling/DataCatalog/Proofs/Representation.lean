import DataCatalog.Proofs.Members

/-!
# What a record holds and what is written of it

A record is what the history of its edits says, and every record that is read has a history: the
edits that the members of an object make.  Writing is exact in turn.  The members of a written
record have the keys of the named fields that are present, in the order of the shape, then those of
the extra fields; no key stands twice, none is the tag, and no member is without information.
-/

namespace DataCatalog

variable {s : Shape}

/-! ## Everything that is read has a history -/

mutual

/-- The entries of a decoded value, in order. -/
def Decoded.entities : Decoded → List Entity
  | .entity e => [e]
  | .list items => entitiesOfItems items
  | _ => []

def Decoded.entitiesOfItems : List Decoded → List Entity
  | [] => []
  | item :: rest => item.entities ++ entitiesOfItems rest

end

mutual

/-- The values that are reached through arrays alone, in order. -/
def Json.leaves : Json → List Json
  | .array items => leavesOfItems items
  | value => [value]

def Json.leavesOfItems : List Json → List Json
  | [] => []
  | item :: rest => item.leaves ++ leavesOfItems rest

end

namespace Codec

variable {c : Codec}

/-- The location is what the members of an object make of the empty one. -/
def ReadsLocation (c : Codec) (location : Location) : Prop :=
  ∃ members edits, c.readMembers .location members = .ok edits ∧ location.Reflects edits

/-- The entry is what the members make of the empty one, and its locations are read in the same
way. -/
def ReadsEntity (c : Codec) (members : List (String × Json)) (e : Entity) : Prop :=
  (∃ kind edits, c.role members = .ok (.entity kind) ∧
      c.readMembers kind.shape members = .ok edits ∧ e.Reflects kind edits) ∧
    ∀ location ∈ e.locations, c.ReadsLocation location

theorem exists_members_of_readLocation {value : Json} {location : Location}
    (h : c.readLocation value = .ok location) :
    ∃ members edits, value = .object members ∧ c.readMembers .location members = .ok edits ∧
      location = .ofEdits edits := by
  cases value with
  | object members =>
      rw [readLocation, bind_eq_ok_iff] at h
      obtain ⟨_, -, hmembers⟩ := h
      obtain ⟨edits, hedits, hlocation⟩ := bind_eq_ok_iff.mp hmembers
      cases hlocation
      exact ⟨members, edits, rfl, hedits, rfl⟩
  | null => cases h
  | bool value => cases h
  | number value => cases h
  | string value => cases h
  | array items => cases h

theorem exists_item_of_readLocations {value : Json} {items : List Location}
    (h : c.readLocations value = .ok items) {location : Location} (hmem : location ∈ items) :
    ∃ values item, value = .array values ∧ item ∈ values ∧ c.readLocation item = .ok location := by
  cases value with
  | array values =>
      rw [readLocations, readLocationItems_eq_mapM] at h
      obtain ⟨item, hitem, hread⟩ := exists_mem_of_mapM_eq_ok h hmem
      exact ⟨values, item, rfl, hitem, hread⟩
  | null =>
      cases h
      cases hmem
  | bool value => cases h
  | number value => cases h
  | string value => cases h
  | object members => cases h

/-- The locations that are placed come from the one list of locations among the members. -/
theorem exists_member_of_mem_placed {members : List (String × Json)} {edits : List (Edit .dataset)}
    (h : c.readMembers .dataset members = .ok edits) {location : Location}
    (hmem : location ∈ Edit.placed edits) :
    ∃ member ∈ members, ∃ items, c.readLocations member.2 = .ok items ∧ location ∈ items := by
  rw [Edit.placed_of_forall (location?_of_readMembers h)] at hmem
  cases hlast : (edits.filterMap Edit.locations?).getLast? with
  | none =>
      rw [hlast] at hmem
      cases hmem
  | some items =>
      rw [hlast] at hmem
      obtain ⟨e, he, hitems⟩ := List.mem_filterMap.mp (List.mem_of_getLast? hlast)
      obtain ⟨member, hmember, own, hown, hmemOwn⟩ := exists_member_of_mem h he
      rcases readMember_cases hown with
        ⟨f, has, v?, -, -, rfl⟩ | ⟨dataset, placed, -, hplaced, rfl⟩ | ⟨-, -, kept, -, rfl⟩
      · obtain ⟨v, -, rfl⟩ := List.mem_map.mp hmemOwn
        cases hitems
      · cases List.mem_singleton.mp hmemOwn
        cases hitems
        exact ⟨member, hmember, items, hplaced, hmem⟩
      · cases List.mem_singleton.mp hmemOwn
        cases hitems

/-- So each is what the members of an object in this list make of the empty location. -/
theorem exists_location_members {members : List (String × Json)} {edits : List (Edit .dataset)}
    (h : c.readMembers .dataset members = .ok edits) {location : Location}
    (hmem : location ∈ Edit.placed edits) :
    ∃ key values own ownEdits, (key, .array values) ∈ members ∧ .object own ∈ values ∧
      c.readMembers .location own = .ok ownEdits ∧ location = .ofEdits ownEdits := by
  obtain ⟨⟨key, value⟩, hmember, items, hread, hitem⟩ := exists_member_of_mem_placed h hmem
  obtain ⟨values, item, hvalues, hvalue, hlocation⟩ := exists_item_of_readLocations hread hitem
  obtain ⟨own, ownEdits, rfl, hown, hedits⟩ := exists_members_of_readLocation hlocation
  dsimp only at hvalues
  subst hvalues
  exact ⟨key, values, own, ownEdits, hmember, hvalue, hown, hedits⟩

theorem readsLocation_of_placed {members : List (String × Json)} {edits : List (Edit .dataset)}
    (h : c.readMembers .dataset members = .ok edits) :
    ∀ location ∈ Edit.placed edits, c.ReadsLocation location := by
  intro location hmem
  obtain ⟨-, -, own, ownEdits, -, -, hown, rfl⟩ := exists_location_members h hmem
  exact ⟨own, ownEdits, hown, Record.reflects_ofEdits ownEdits⟩

theorem readsEntity_of_readMembers {members : List (String × Json)} {kind : EntityKind}
    {edits : List (Edit kind.shape)} (hrole : c.role members = .ok (.entity kind))
    (hedits : c.readMembers kind.shape members = .ok edits) :
    c.ReadsEntity members (.build kind edits) := by
  refine ⟨⟨kind, edits, hrole, hedits, Entity.reflects_build kind edits⟩, ?_⟩
  cases kind with
  | dataset =>
      have hplaced : (Dataset.ofEdits edits).locations = Edit.placed edits :=
        Dataset.locations_ofEdits edits
      exact fun location hmem => readsLocation_of_placed hedits location (hplaced ▸ hmem)
  | folder => exact List.forall_mem_nil _
  | group => exact List.forall_mem_nil _
  | location => exact List.forall_mem_nil _

mutual

/-- Every entry that is read is what an object of the document makes of the empty one. -/
theorem readsEntity_of_decode :
    (value : Json) → {d : Decoded} → c.decode value = .ok d → ∀ e ∈ d.entities,
      ∃ members, Json.object members ∈ value.leaves ∧ c.ReadsEntity members e
  | .array items, _, h => by
      rw [decode_array] at h
      obtain ⟨values, hvalues, rfl⟩ := map_eq_ok_iff.mp h
      exact readsEntity_of_mapM_decode items hvalues
  | .object members, _, h => by
      rcases decode_object_cases h with ⟨entry, -, -, rfl⟩ | ⟨kind, edits, hrole, hedits, rfl⟩
      · exact List.forall_mem_nil _
      · refine List.forall_mem_singleton.mpr ⟨members, List.mem_singleton_self _, ?_⟩
        exact readsEntity_of_readMembers hrole hedits
  | .null, _, h => by
      cases h
      exact List.forall_mem_nil _
  | .bool _, _, h => by
      cases h
      exact List.forall_mem_nil _
  | .number _, _, h => by
      cases h
      exact List.forall_mem_nil _
  | .string _, _, h => by
      cases h
      exact List.forall_mem_nil _

theorem readsEntity_of_mapM_decode :
    (items : List Json) → {values : List Decoded} → items.mapM c.decode = .ok values →
      ∀ e ∈ Decoded.entitiesOfItems values,
        ∃ members, Json.object members ∈ Json.leavesOfItems items ∧ c.ReadsEntity members e
  | [], _, h => by
      cases h
      exact List.forall_mem_nil _
  | item :: rest, _, h => by
      rw [List.mapM_cons] at h
      obtain ⟨value, hvalue, hrest⟩ := bind_eq_ok_iff.mp h
      obtain ⟨values, hvalues, hlist⟩ := bind_eq_ok_iff.mp hrest
      cases hlist
      intro e he
      rcases List.mem_append.mp he with hfirst | hlater
      · obtain ⟨members, hmem, hreads⟩ := readsEntity_of_decode item hvalue e hfirst
        exact ⟨members, List.mem_append_left _ hmem, hreads⟩
      · obtain ⟨members, hmem, hreads⟩ := readsEntity_of_mapM_decode rest hvalues e hlater
        exact ⟨members, List.mem_append_right _ hmem, hreads⟩

end

end Codec

/-! ## What is written is exact -/

/-- The keys of the named fields that have a value, in the order of the shape. -/
def Record.presentKeys (r : Record s) : List String :=
  (s.fields.filter fun f => (r.get? f).isSome).map Field.key

/-- The keys of the named fields that have a value; that of the locations comes last. -/
def Entity.presentKeys : Entity → List String
  | .dataset d => d.toRecord.presentKeys ++ if d.locations = [] then [] else [Shape.locationsKey]
  | .folder r => Record.presentKeys r
  | .group r => Record.presentKeys r
  | .location r => Record.presentKeys r

/-- The members say what the entry holds, everything once and nothing in vain. -/
structure Entity.WritesExactly (e : Entity) (members : List (String × Json)) : Prop where
  keys : Entries.keys members = e.presentKeys ++ Entries.keys e.extraFields
  distinct : (Entries.keys members).Nodup
  untagged : Shape.tagKey ∉ Entries.keys members
  truthy : ∀ member ∈ members, member.2.truthy = true

theorem Json.truthy_ofInt64 {n : Int64} (h : (n != 0) = true) : (ofInt64 n).truthy = true := by
  have hne : n ≠ 0 := bne_iff_ne.mp h
  have hvalue : n.toInt ≠ 0 := fun hzero => hne (Int64.toInt_inj.mp hzero)
  simp [ofInt64, truthy, Number.ofInt64, Number.isZero, hvalue]

theorem Shape.nodup_ownKeys (s : Shape) : s.ownKeys.Nodup := by
  cases s <;> decide

theorem Shape.mem_reserved_of_mem_ownKeys {key : String} (h : key ∈ s.ownKeys) :
    key ∈ s.reserved :=
  List.mem_cons_of_mem tagKey h

theorem Record.presentKeys_sublist (r : Record s) :
    r.presentKeys.Sublist (s.fields.map Field.key) :=
  List.filter_sublist.map Field.key

theorem Entity.presentKeys_sublist (e : Entity) : e.presentKeys.Sublist e.kind.shape.ownKeys := by
  cases e with
  | dataset d =>
      refine d.toRecord.presentKeys_sublist.append ?_
      split
      · exact List.nil_sublist _
      · exact .refl _
  | folder r => exact (Record.presentKeys_sublist r).trans (List.sublist_append_left _ _)
  | group r => exact (Record.presentKeys_sublist r).trans (List.sublist_append_left _ _)
  | location r => exact (Record.presentKeys_sublist r).trans (List.sublist_append_left _ _)

theorem Entity.extraFields_truthy (e : Entity) :
    ∀ entry ∈ e.extraFields, entry.2.truthy = true := by
  cases e with
  | dataset d => exact d.extras.truthy
  | folder r => exact r.extras.truthy
  | group r => exact r.extras.truthy
  | location r => exact r.extras.truthy

/-- No extra field has the key of a named one. -/
theorem Entity.disjoint_ownKeys (e : Entity) {key : String}
    (hkey : key ∈ Entries.keys e.extraFields) : key ∉ e.kind.shape.ownKeys :=
  fun hown => e.extraFields_allowed key hkey (Shape.mem_reserved_of_mem_ownKeys hown)

theorem Entity.nodup_keys (e : Entity) :
    (e.presentKeys ++ Entries.keys e.extraFields).Nodup := by
  have hpresent : e.presentKeys.Nodup :=
    (Shape.nodup_ownKeys _).sublist e.presentKeys_sublist
  refine hpresent.append e.extraFields_distinct ?_
  intro key hown hextra
  exact e.disjoint_ownKeys hextra (e.presentKeys_sublist.subset hown)

theorem Entity.tagKey_notMem (e : Entity) :
    Shape.tagKey ∉ e.presentKeys ++ Entries.keys e.extraFields := by
  intro hmem
  rcases List.mem_append.mp hmem with hown | hextra
  · exact Shape.tagKey_not_mem_ownKeys _ (e.presentKeys_sublist.subset hown)
  · exact e.extraFields_allowed _ hextra (Shape.tagKey_mem_reserved _)

namespace Codec

variable {c : Codec}

theorem truthy_of_encodeValue {type : FieldType} {v : type.Value} {value : Json}
    (htruthy : type.truthy v = true) (h : c.encodeValue type v = .ok value) :
    value.truthy = true := by
  cases type with
  | integer =>
      cases h
      exact Json.truthy_ofInt64 htruthy
  | text =>
      cases h
      exact htruthy
  | metadata =>
      obtain ⟨triples, htriples, rfl⟩ := map_eq_ok_iff.mp h
      have hlength := (mapM_eq_ok_iff.mp htriples).length_eq
      cases triples with
      | nil =>
          have hnil : OrderedMap.entries v = [] := List.length_eq_zero_iff.mp hlength
          simp [FieldType.truthy, Metadata.truthy, OrderedMap.isEmpty, hnil] at htruthy
      | cons triple rest => rfl

theorem keys_of_encodeNamed {r : Record s} {fields : List Field} {members : List (String × Json)}
    (h : c.encodeNamed r fields = .ok members) :
    Entries.keys members = (fields.filter fun f => (r.get? f).isSome).map Field.key := by
  induction fields generalizing members with
  | nil =>
      cases h
      rfl
  | cons f rest ih =>
      rcases encodeNamed_cons_eq_ok_iff.mp h with
        ⟨hget, hrest⟩ | ⟨v, value, more, hget, -, hrest, rfl⟩
      · simp [hget, ih hrest]
      · simp [hget, ih hrest]

theorem truthy_of_encodeNamed {r : Record s} {fields : List Field}
    {members : List (String × Json)} (h : c.encodeNamed r fields = .ok members) :
    ∀ member ∈ members, member.2.truthy = true := by
  intro member hmember
  obtain ⟨f, -, v, hget, -, hvalue⟩ := exists_field_of_mem h hmember
  obtain ⟨htruthy, -⟩ := Record.get?_eq_some_iff.mp hget
  exact truthy_of_encodeValue htruthy hvalue

theorem truthy_of_encodeLocations {locations : List Location} {members : List (String × Json)}
    (h : c.encodeLocations locations = .ok members) :
    ∀ member ∈ members, member.2.truthy = true := by
  rcases encodeLocations_eq_ok_iff.mp h with ⟨-, rfl⟩ | ⟨hne, items, hitems, rfl⟩
  · exact List.forall_mem_nil _
  · have hlength := (mapM_eq_ok_iff.mp hitems).length_eq
    cases items with
    | nil => exact absurd (List.length_eq_zero_iff.mp hlength) hne
    | cons item rest => exact List.forall_mem_singleton.mpr rfl

theorem keys_of_encodeLocations {locations : List Location} {members : List (String × Json)}
    (h : c.encodeLocations locations = .ok members) :
    Entries.keys members = if locations = [] then [] else [Shape.locationsKey] := by
  rcases encodeLocations_eq_ok_iff.mp h with ⟨hnil, rfl⟩ | ⟨hne, items, -, rfl⟩
  · rw [if_pos hnil, Entries.keys_nil]
  · rw [if_neg hne, Entries.keys_cons, Entries.keys_nil]

/-- The members before the extra fields are those of the fields that are present. -/
theorem present_of_encodeBody {e : Entity} {members : List (String × Json)}
    (h : c.encodeBody e = .ok members) :
    ∃ own, members = own ++ e.extraFields ∧ Entries.keys own = e.presentKeys ∧
      ∀ member ∈ own, member.2.truthy = true := by
  have hrecord : ∀ {s : Shape} {r : Record s}, c.encodeRecord r = .ok members →
      ∃ own, members = own ++ r.extras.entries ∧ Entries.keys own = r.presentKeys ∧
        ∀ member ∈ own, member.2.truthy = true := by
    intro s r hmembers
    obtain ⟨named, hnamed, rfl⟩ := encodeRecord_eq_ok_iff.mp hmembers
    exact ⟨named, rfl, keys_of_encodeNamed hnamed, truthy_of_encodeNamed hnamed⟩
  cases e with
  | dataset d =>
      obtain ⟨named, hnamed, locations, hlocations, rfl⟩ := encodeDataset_eq_ok_iff.mp h
      refine ⟨named ++ locations, rfl, ?_, List.forall_mem_append.mpr
        ⟨truthy_of_encodeNamed hnamed, truthy_of_encodeLocations hlocations⟩⟩
      rw [Entries.keys_append, keys_of_encodeNamed hnamed, keys_of_encodeLocations hlocations]
      rfl
  | folder r => exact hrecord h
  | group r => exact hrecord h
  | location r => exact hrecord h

theorem writesExactly_of_encodeBody {e : Entity} {members : List (String × Json)}
    (h : c.encodeBody e = .ok members) : e.WritesExactly members := by
  obtain ⟨own, rfl, hown, htruthy⟩ := present_of_encodeBody h
  have hkeys : Entries.keys (own ++ e.extraFields) =
      e.presentKeys ++ Entries.keys e.extraFields := by
    rw [Entries.keys_append, hown]
  exact {
    keys := hkeys
    distinct := hkeys ▸ e.nodup_keys
    untagged := hkeys ▸ e.tagKey_notMem
    truthy := List.forall_mem_append.mpr ⟨htruthy, e.extraFields_truthy⟩ }

/-- Every record that edits build, and every one that is read, is what its history says, and of any
record exactly the fields that are present are written. -/
theorem record_representation :
    (∀ (kind : EntityKind) (edits : List (Edit kind.shape)),
        (Entity.build kind edits).Reflects kind edits) ∧
      (∀ (c : Codec) (value : Json) (d : Decoded), c.decode value = .ok d → ∀ e ∈ d.entities,
        ∃ members, Json.object members ∈ value.leaves ∧ c.ReadsEntity members e) ∧
      ∀ (c : Codec) (e : Entity) (members : List (String × Json)),
        c.encodeBody e = .ok members → e.WritesExactly members :=
  ⟨Entity.reflects_build, fun _ value _ => readsEntity_of_decode value,
    fun _ _ _ => writesExactly_of_encodeBody⟩

/-- A list with a dataset that has a location and an empty name, and a folder whose name is taken
back and which is given a tag and an extra field as extra fields. -/
theorem record_representation_listed :
    let c : Codec := ⟨.standard, none⟩
    let value : Json := .array [.object [(Shape.tagKey, .string "dataset"), ("name", .string ""),
      ("run", .ofInt64 7), (Shape.locationsKey, .array [.object [("site", .string "SLAC")]])]]
    let edits : List (Edit .container) := [.set .name (by decide) "a", .extra "run" (.bool true),
      .extra Shape.tagKey (.string "group"), .set .name (by decide) "", .extra "run" .null]
    (Entity.build .folder edits).Reflects .folder edits ∧
      (∃ d, c.decode value = .ok d ∧ ∀ e ∈ d.entities,
        ∃ members, Json.object members ∈ value.leaves ∧ c.ReadsEntity members e) ∧
      ∃ members, c.encodeBody (Entity.build .folder edits) = .ok members ∧
        (Entity.build .folder edits).WritesExactly members := by
  intro c value edits
  have hread : c.decode value = .ok _ := rfl
  have hwritten : c.encodeBody (Entity.build .folder edits) = .ok [("run", .bool true)] := rfl
  refine ⟨record_representation.1 .folder edits, ⟨_, hread, ?_⟩, ⟨_, hwritten, ?_⟩⟩
  · exact record_representation.2.1 c value _ hread
  · exact record_representation.2.2 c _ _ hwritten

end Codec

end DataCatalog
