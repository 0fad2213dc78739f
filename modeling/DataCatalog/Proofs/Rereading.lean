import DataCatalog.Proofs.Reader

/-!
# What was written is read back in its canonical form

A written entry is the list of its present named fields, then its locations, then its extra fields.
No member stands in the way of another: the keys of extra fields are neither the tag nor those of
named fields, and an edit under the key of the tag changes nothing.  Named fields are read back as
they were, and each extra field as its canonical form.  So reading a written entry yields the entry
itself, with canonical extra fields.
-/

namespace DataCatalog

/-- The extra fields of an entry. -/
def Entity.extraFields : Entity → List (String × Json)
  | .dataset d => d.extras.entries
  | .folder r => r.extras.entries
  | .group r => r.extras.entries
  | .location r => r.extras.entries

/-- The locations of an entry; only a dataset has any. -/
def Entity.locations : Entity → List Location
  | .dataset d => d.locations
  | _ => []

/-- The keys of a written record that are not those of extra fields. -/
def Shape.ownKeys (s : Shape) : List String :=
  s.fields.map Field.key ++ if s = .dataset then [locationsKey] else []

theorem Shape.tagKey_mem_reserved (s : Shape) : tagKey ∈ s.reserved :=
  List.mem_cons_self

theorem Shape.field?_eq_none_of_not_mem_reserved {s : Shape} {key : String}
    (h : key ∉ s.reserved) : s.field? key = none := by
  cases hfield : s.field? key with
  | none => rfl
  | some f =>
      have hkey : f.val.key = key := Shape.key_of_field? hfield
      have hmem : f.val.key ∈ s.fields.map Field.key := List.mem_map_of_mem f.property
      simp [Shape.reserved, ← hkey, hmem] at h

theorem Shape.ne_locationsKey_of_not_mem_reserved {s : Shape} {key : String}
    (h : key ∉ s.reserved) : ¬(s = .dataset ∧ key = locationsKey) := by
  rintro ⟨rfl, rfl⟩
  exact h (by decide)

theorem Shape.tagKey_not_mem_ownKeys (s : Shape) : tagKey ∉ s.ownKeys := by
  cases s <;> decide

theorem Entity.extraFields_allowed (e : Entity) :
    ∀ key ∈ Entries.keys e.extraFields, key ∉ e.kind.shape.reserved := by
  cases e with
  | dataset d => exact d.extras.allowed
  | folder r => exact r.extras.allowed
  | group r => exact r.extras.allowed
  | location r => exact r.extras.allowed

theorem Entity.extraFields_distinct (e : Entity) : (Entries.keys e.extraFields).Nodup := by
  cases e with
  | dataset d => exact d.extras.distinct
  | folder r => exact r.extras.distinct
  | group r => exact r.extras.distinct
  | location r => exact r.extras.distinct

theorem Entity.build_tag (kind : EntityKind) (value : Json) (edits : List (Edit kind.shape)) :
    Entity.build kind (.extra Shape.tagKey value :: edits) = Entity.build kind edits := by
  have hrecord := fun s => Record.ofEdits_extra_of_mem_reserved (Shape.tagKey_mem_reserved s) value
  have hdataset := Dataset.ofEdits_extra_of_mem_reserved (Shape.tagKey_mem_reserved _) value
  cases kind with
  | dataset => exact congrArg Entity.dataset (hdataset edits)
  | folder => exact congrArg Entity.folder (hrecord .container edits)
  | group => exact congrArg Entity.group (hrecord .container edits)
  | location => exact congrArg Entity.location (hrecord .location edits)

namespace Codec

variable {c : Codec} {s : Shape}

/-! ## Canonical forms -/

/-- Extra fields in the forms in which they are kept when they are read. -/
def canonicalExtras (c : Codec) (entries : List (String × Json)) :
    Except Error (List (String × Json)) :=
  entries.mapM fun entry => (c.canonicalExtra entry.1 entry.2).map (Prod.mk entry.1)

def canonicalRecord (c : Codec) (r : Record s) : Except Error (Record s) :=
  (c.canonicalExtras r.extras.entries).map r.withExtras

def canonicalDataset (c : Codec) (d : Dataset) : Except Error Dataset := do
  let locations ← d.locations.mapM c.canonicalRecord
  let r ← c.canonicalRecord d.toRecord
  .ok { r with locations := locations }

/-- An entry with its extra fields, and those of its locations, in canonical form. -/
def canonicalEntity (c : Codec) : Entity → Except Error Entity
  | .dataset d => (c.canonicalDataset d).map .dataset
  | .folder r => (c.canonicalRecord r).map .folder
  | .group r => (c.canonicalRecord r).map .group
  | .location r => (c.canonicalRecord r).map .location

/-! ## The layout of a written entry -/

theorem encodeNamed_cons_eq_ok_iff {r : Record s} {f : Field} {rest : List Field}
    {members : List (String × Json)} :
    c.encodeNamed r (f :: rest) = .ok members ↔
      (r.get? f = none ∧ c.encodeNamed r rest = .ok members) ∨
        ∃ v value more, r.get? f = some v ∧ c.encodeValue f.type v = .ok value ∧
          c.encodeNamed r rest = .ok more ∧ members = (f.key, value) :: more := by
  rw [encodeNamed]
  cases hget : r.get? f with
  | none => simp
  | some v =>
      simp only [bind_eq_ok_iff, Except.ok.injEq, reduceCtorEq, false_and, Option.some.injEq,
        false_or]
      constructor
      · rintro ⟨value, hvalue, more, hmore, rfl⟩
        exact ⟨v, value, more, rfl, hvalue, hmore, rfl⟩
      · rintro ⟨_, value, more, rfl, hvalue, hmore, rfl⟩
        exact ⟨value, hvalue, more, hmore, rfl⟩

/-- Each of the members of named fields is the written value of one of these fields. -/
theorem exists_field_of_mem {r : Record s} {fields : List Field} {members : List (String × Json)}
    (h : c.encodeNamed r fields = .ok members) {member : String × Json} (hmem : member ∈ members) :
    ∃ f ∈ fields, ∃ v, r.get? f = some v ∧ f.key = member.1 ∧
      c.encodeValue f.type v = .ok member.2 := by
  induction fields generalizing members with
  | nil =>
      cases h
      cases hmem
  | cons f rest ih =>
      have hlater {more : List (String × Json)} (hmore : c.encodeNamed r rest = .ok more)
          (hmem : member ∈ more) :
          ∃ g ∈ f :: rest, ∃ v, r.get? g = some v ∧ g.key = member.1 ∧
            c.encodeValue g.type v = .ok member.2 := by
        obtain ⟨g, hg, hvalue⟩ := ih hmore hmem
        exact ⟨g, List.mem_cons_of_mem f hg, hvalue⟩
      rcases encodeNamed_cons_eq_ok_iff.mp h with
        ⟨-, hrest⟩ | ⟨v, value, more, hget, hvalue, hrest, rfl⟩
      · exact hlater hrest hmem
      · rcases List.mem_cons.mp hmem with rfl | hmore
        · exact ⟨f, List.mem_cons_self, v, hget, rfl, hvalue⟩
        · exact hlater hrest hmore

/-- Each of the fields that are present is written as one of the members. -/
theorem exists_member_of_get? {r : Record s} {fields : List Field} {members : List (String × Json)}
    (h : c.encodeNamed r fields = .ok members) {f : Field} (hf : f ∈ fields) {v : f.Value}
    (hget : r.get? f = some v) :
    ∃ value, c.encodeValue f.type v = .ok value ∧ (f.key, value) ∈ members := by
  induction fields generalizing members with
  | nil => cases hf
  | cons g rest ih =>
      rcases encodeNamed_cons_eq_ok_iff.mp h with
        ⟨hnone, hrest⟩ | ⟨w, written, more, hsome, hwritten, hrest, rfl⟩
      · rcases List.mem_cons.mp hf with rfl | hmem
        · cases hnone.symm.trans hget
        · exact ih hrest hmem
      · rcases List.mem_cons.mp hf with rfl | hmem
        · cases hsome.symm.trans hget
          exact ⟨written, hwritten, List.mem_cons_self⟩
        · obtain ⟨value, hvalue, hmember⟩ := ih hrest hmem
          exact ⟨value, hvalue, List.mem_cons_of_mem _ hmember⟩

/-- The members of named fields have the keys of these fields. -/
theorem mem_keys_of_encodeNamed {r : Record s} {fields : List Field}
    {members : List (String × Json)} (h : c.encodeNamed r fields = .ok members)
    {key : String} (hkey : key ∈ Entries.keys members) : ∃ f ∈ fields, f.key = key := by
  obtain ⟨member, hmember, rfl⟩ := List.mem_map.mp hkey
  obtain ⟨f, hf, v, -, hkey, -⟩ := exists_field_of_mem h hmember
  exact ⟨f, hf, hkey⟩

theorem encodeRecord_eq_ok_iff {r : Record s} {members : List (String × Json)} :
    c.encodeRecord r = .ok members ↔
      ∃ named, c.encodeNamed r s.fields = .ok named ∧ members = named ++ r.extras.entries := by
  rw [encodeRecord, map_eq_ok_iff]
  simp only [eq_comm]

theorem encodeLocations_eq_ok_iff {locations : List Location} {members : List (String × Json)} :
    c.encodeLocations locations = .ok members ↔
      (locations = [] ∧ [] = members) ∨
        locations ≠ [] ∧ ∃ items,
          locations.mapM (fun location => (c.encodeRecord location).map Json.object) = .ok items ∧
            [(Shape.locationsKey, .array items)] = members := by
  unfold encodeLocations
  by_cases hlocations : locations = []
  · simp [hlocations]
  · simp [hlocations, bind_eq_ok_iff]

theorem encodeDataset_eq_ok_iff {d : Dataset} {members : List (String × Json)} :
    c.encodeDataset d = .ok members ↔
      ∃ named, c.encodeNamed d.toRecord Shape.dataset.fields = .ok named ∧
        ∃ locations, c.encodeLocations d.locations = .ok locations ∧
          named ++ locations ++ d.extras.entries = members := by
  simp only [encodeDataset, bind_eq_ok_iff, Except.ok.injEq]

theorem mem_ownKeys_of_encodeNamed {r : Record s} {named : List (String × Json)}
    (h : c.encodeNamed r s.fields = .ok named) :
    ∀ key ∈ Entries.keys named, key ∈ s.ownKeys := by
  intro key hkey
  obtain ⟨f, hf, rfl⟩ := mem_keys_of_encodeNamed h hkey
  exact List.mem_append_left _ (List.mem_map_of_mem hf)

theorem layout_of_encodeRecord {r : Record s} {members : List (String × Json)}
    (h : c.encodeRecord r = .ok members) :
    ∃ own, members = own ++ r.extras.entries ∧ ∀ key ∈ Entries.keys own, key ∈ s.ownKeys := by
  obtain ⟨named, hnamed, rfl⟩ := encodeRecord_eq_ok_iff.mp h
  exact ⟨named, rfl, mem_ownKeys_of_encodeNamed hnamed⟩

theorem layout_of_encodeDataset {d : Dataset} {members : List (String × Json)}
    (h : c.encodeDataset d = .ok members) :
    ∃ own, members = own ++ d.extras.entries ∧
      ∀ key ∈ Entries.keys own, key ∈ Shape.dataset.ownKeys := by
  obtain ⟨named, hnamed, locations, hlocations, rfl⟩ := encodeDataset_eq_ok_iff.mp h
  have hkey : Shape.locationsKey ∈ Shape.dataset.ownKeys := by decide
  have hkeys : ∀ key ∈ Entries.keys locations, key ∈ Shape.dataset.ownKeys := by
    rcases encodeLocations_eq_ok_iff.mp hlocations with ⟨_, rfl⟩ | ⟨_, items, _, rfl⟩
    · simp
    · exact List.forall_mem_singleton.mpr hkey
  refine ⟨named ++ locations, rfl, ?_⟩
  rw [Entries.keys_append]
  exact List.forall_mem_append.mpr ⟨mem_ownKeys_of_encodeNamed hnamed, hkeys⟩

/-- A written entry ends with its extra fields, and no member before them has a key that an extra
field could have. -/
theorem layout_of_encodeBody {e : Entity} {members : List (String × Json)}
    (h : c.encodeBody e = .ok members) :
    ∃ own, members = own ++ e.extraFields ∧
      ∀ key ∈ Entries.keys own, key ∈ e.kind.shape.ownKeys := by
  cases e with
  | dataset d => exact layout_of_encodeDataset h
  | folder r => exact layout_of_encodeRecord h
  | group r => exact layout_of_encodeRecord h
  | location r => exact layout_of_encodeRecord h

/-- Under a key that is not reserved, a written entry has its extra field. -/
theorem get?_of_encodeBody {e : Entity} {members : List (String × Json)}
    (h : c.encodeBody e = .ok members) {key : String} (hkey : key ∉ e.kind.shape.ownKeys) :
    Entries.get? key members = Entries.get? key e.extraFields := by
  obtain ⟨own, rfl, hown⟩ := layout_of_encodeBody h
  exact Entries.get?_append_of_not_mem (fun hmem => hkey (hown key hmem)) _

/-- The body of a written entry has no tag. -/
theorem taggedKind_of_encodeBody {e : Entity} {members : List (String × Json)}
    (h : c.encodeBody e = .ok members) : taggedKind members = .ok none := by
  have hextras : Entries.get? Shape.tagKey e.extraFields = none :=
    Entries.get?_eq_none_iff.mpr fun hmem =>
      e.extraFields_allowed _ hmem (Shape.tagKey_mem_reserved _)
  rw [taggedKind, get?_of_encodeBody h (Shape.tagKey_not_mem_ownKeys _), hextras]

/-! ## Named fields -/

/-- The members of named fields are read as the edits that set these fields. -/
theorem readMembers_of_encodeNamed (hcoherent : c.types.Coherent) {r : Record s}
    {fields : List { f : Field // f ∈ s.fields }} {members : List (String × Json)}
    (h : c.encodeNamed r (fields.map Subtype.val) = .ok members) :
    c.readMembers s members = .ok (r.namedEdits fields) := by
  induction fields generalizing members with
  | nil =>
      cases h
      rfl
  | cons f rest ih =>
      obtain ⟨f, has⟩ := f
      rw [List.map_cons] at h
      rcases encodeNamed_cons_eq_ok_iff.mp h with
        ⟨hget, hrest⟩ | ⟨v, value, more, hget, hvalue, hrest, rfl⟩
      · rw [ih hrest]
        simp [Record.namedEdits, hget]
      · obtain ⟨htruthy, _⟩ := Record.get?_eq_some_iff.mp hget
        have hread : c.readField f.key f.type value = .ok (some v) :=
          readField_of_encodeValue hcoherent f.key htruthy hvalue
        rw [readMembers_cons, readMember_field c has, hread, ih hrest]
        simp [Record.namedEdits, hget]

/-! ## Extra fields -/

theorem canonicalExtras_cons (key : String) (value : Json) (rest : List (String × Json)) :
    c.canonicalExtras ((key, value) :: rest) =
      c.canonicalExtra key value >>= fun first =>
        (c.canonicalExtras rest).map ((key, first) :: ·) := by
  simp only [canonicalExtras, List.mapM_cons]
  cases c.canonicalExtra key value with
  | error e => rfl
  | ok first => exact bind_ok_eq_map _ _

/-- Extra fields are read as the edits that set them to their canonical forms. -/
theorem readMembers_extras {entries : List (String × Json)}
    (hallowed : ∀ key ∈ Entries.keys entries, key ∉ s.reserved) :
    c.readMembers s entries = (c.canonicalExtras entries).map Edit.extras := by
  induction entries with
  | nil => rfl
  | cons entry rest ih =>
      obtain ⟨key, value⟩ := entry
      have hkey : key ∉ s.reserved := hallowed key List.mem_cons_self
      have hrest := ih fun k hk => hallowed k (List.mem_cons_of_mem key hk)
      rw [readMembers_cons, readMember_extra c value
        (Shape.field?_eq_none_of_not_mem_reserved hkey)
        (Shape.ne_locationsKey_of_not_mem_reserved hkey),
        hrest, canonicalExtras_cons]
      cases c.canonicalExtra key value with
      | error e => rfl
      | ok first => cases c.canonicalExtras rest <;> rfl

/-! ## Records -/

theorem readMembers_of_encodeNamed_fields (hcoherent : c.types.Coherent) {r : Record s}
    {named : List (String × Json)} (h : c.encodeNamed r s.fields = .ok named) :
    c.readMembers s named = .ok (r.namedEdits s.fields.attach) := by
  apply readMembers_of_encodeNamed hcoherent
  rwa [List.attach_map_subtype_val]

theorem readMembers_of_encodeRecord (hcoherent : c.types.Coherent) {r : Record s}
    {members : List (String × Json)} (h : c.encodeRecord r = .ok members) :
    (c.readMembers s members).map Record.ofEdits = c.canonicalRecord r := by
  obtain ⟨named, hnamed, rfl⟩ := encodeRecord_eq_ok_iff.mp h
  rw [readMembers_append, readMembers_of_encodeNamed_fields hcoherent hnamed, ok_bind,
    readMembers_extras r.extras.allowed, canonicalRecord]
  cases c.canonicalExtras r.extras.entries with
  | error e => rfl
  | ok entries =>
      simp only [map_ok]
      rw [Record.ofEdits_namedEdits_append]

/-! ## Locations -/

theorem readLocation_of_encodeRecord (hcoherent : c.types.Coherent) {r : Location}
    {members : List (String × Json)} (h : c.encodeRecord r = .ok members) :
    c.readLocation (.object members) = c.canonicalRecord r := by
  have htag : checkLocationTag members = .ok () := by
    rw [checkLocationTag, taggedKind_of_encodeBody (e := .location r) h]
  rw [readLocation, htag, ok_bind, bind_ok_eq_map]
  exact readMembers_of_encodeRecord hcoherent h

/-- The member of the locations is read as the edit that sets them to their canonical forms. -/
theorem readMembers_of_encodeLocations (hcoherent : c.types.Coherent) {locations : List Location}
    {members : List (String × Json)} (h : c.encodeLocations locations = .ok members) :
    c.readMembers .dataset members =
      (locations.mapM c.canonicalRecord).map Edit.placing := by
  rcases encodeLocations_eq_ok_iff.mp h with ⟨rfl, rfl⟩ | ⟨hlocations, items, hitems, rfl⟩
  · rfl
  · have hread : items.mapM c.readLocation = locations.mapM c.canonicalRecord := by
      apply mapM_eq_mapM
      refine (mapM_eq_ok_iff.mp hitems).flip.imp fun item location hitem => ?_
      obtain ⟨fields, hfields, rfl⟩ := map_eq_ok_iff.mp hitem
      exact readLocation_of_encodeRecord hcoherent hfields
    rw [readMembers_cons, readMember_locations, readLocations, readLocationItems_eq_mapM, hread]
    cases hcanonical : locations.mapM c.canonicalRecord with
    | error e => rfl
    | ok canonical =>
        have hne : canonical ≠ [] := by
          rintro rfl
          cases mapM_eq_ok_iff.mp hcanonical
          exact hlocations rfl
        simp [Edit.placing, hne, readMembers]

/-! ## Entries -/

theorem readMembers_of_encodeDataset (hcoherent : c.types.Coherent) {d : Dataset}
    {members : List (String × Json)} (h : c.encodeDataset d = .ok members) :
    (c.readMembers .dataset members).map Dataset.ofEdits = c.canonicalDataset d := by
  obtain ⟨named, hnamed, locations, hlocations, rfl⟩ := encodeDataset_eq_ok_iff.mp h
  rw [List.append_assoc, readMembers_append,
    readMembers_of_encodeNamed_fields hcoherent hnamed, ok_bind, readMembers_append,
    readMembers_of_encodeLocations hcoherent hlocations, readMembers_extras d.extras.allowed,
    canonicalDataset]
  cases d.locations.mapM c.canonicalRecord with
  | error e => rfl
  | ok items =>
      rw [ok_bind, canonicalRecord]
      cases c.canonicalExtras d.extras.entries with
      | error e => rfl
      | ok entries =>
          simp only [map_ok, ok_bind]
          rw [Dataset.ofEdits_namedEdits_append]

/-- The members of a written entry are read as the canonical form of the entry. -/
theorem readMembers_of_encodeBody (hcoherent : c.types.Coherent) {e : Entity}
    {members : List (String × Json)} (h : c.encodeBody e = .ok members) :
    (c.readMembers e.kind.shape members).map (Entity.build e.kind) = c.canonicalEntity e := by
  cases e with
  | dataset d =>
      rw [canonicalEntity, ← readMembers_of_encodeDataset hcoherent h, map_map]
      rfl
  | folder r =>
      rw [canonicalEntity, ← readMembers_of_encodeRecord hcoherent h, map_map]
      rfl
  | group r =>
      rw [canonicalEntity, ← readMembers_of_encodeRecord hcoherent h, map_map]
      rfl
  | location r =>
      rw [canonicalEntity, ← readMembers_of_encodeRecord hcoherent h, map_map]
      rfl

/-- The tag of an entry makes an edit that changes nothing. -/
theorem readMembers_tag (kind : EntityKind) (tag : String) (members : List (String × Json)) :
    (c.readMembers kind.shape ((Shape.tagKey, .string tag) :: members)).map (Entity.build kind) =
      (c.readMembers kind.shape members).map (Entity.build kind) := by
  have hmember : c.readMember kind.shape Shape.tagKey (.string tag) =
      .ok [.extra Shape.tagKey (.string tag)] := by
    cases kind <;> rfl
  rw [readMembers_cons, hmember, ok_bind]
  cases c.readMembers kind.shape members with
  | error e => rfl
  | ok edits => exact congrArg Except.ok (Entity.build_tag kind (.string tag) edits)

theorem role_tagged (e : Entity) (members : List (String × Json)) :
    c.role ((Shape.tagKey, .string e.kind.tag) :: members) = .ok (.entity e.kind) := by
  have htag : taggedKind ((Shape.tagKey, .string e.kind.tag) :: members) = .ok (some e.kind) := by
    rw [← EntityKind.ofTag?_tag e.kind]
    rfl
  rw [role, htag]

/-- A written entry is read as its canonical form, whatever the default kind is. -/
theorem decode_of_encodeEntity (hcoherent : c.types.Coherent) {e : Entity} {value : Json}
    (h : c.encodeEntity e = .ok value) :
    c.decode value = (c.canonicalEntity e).map .entity := by
  obtain ⟨members, hmembers, rfl⟩ := map_eq_ok_iff.mp h
  rw [decode_object_of_entity (role_tagged e members),
    ← readMembers_of_encodeBody hcoherent hmembers, ← readMembers_tag e.kind e.kind.tag, map_map]

end Codec

end DataCatalog
