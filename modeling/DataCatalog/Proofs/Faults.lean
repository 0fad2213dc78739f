import DataCatalog.Proofs.Retention
import DataCatalog.Proofs.Unwritable

/-!
# What can go wrong in a document

A document that cannot be read has a fault at one of its places: in an item of an array, in the tag
of an object, in a metadata entry, or in a member of an entry.  A fault in an extra field is passed
on with the key of the field, if it names none yet.  So an error without a field comes from an
object for which nothing says what it is.

An extra field is written again while it is read.  This is where reading can fail for want of a type
tag, and nowhere else.
-/

namespace DataCatalog

variable {c : Codec} {s : Shape} {fault : Error}

def Error.Named (e : Error) : Prop :=
  e.field.isSome = true

theorem Error.orField_of_named (h : fault.Named) (key : String) : fault.orField key = fault := by
  simp only [Error.Named] at h
  simp [Error.orField, h]

theorem Error.named_orField (e : Error) (key : String) : (e.orField key).Named := by
  unfold Error.orField
  split
  · assumption
  · rfl

@[simp] theorem Error.kind_orField (e : Error) (key : String) : (e.orField key).kind = e.kind := by
  unfold Error.orField
  split <;> simp

/-! ## Faults of scalars and of metadata -/

namespace Codec

theorem readTriple_named (members : List (String × Json)) :
    Yields (fun _ => True) Error.Named (c.readTriple members) := by
  unfold readTriple
  split
  · split
    · simp [Error.Named, Cause.atField]
    · dsimp only
      split <;> simp [Error.Named, Cause.atField]
  · simp [Error.Named, Cause.atField]

theorem readPair_named (field key : String) (value : Json) :
    Yields (fun _ => True) Error.Named (readPair field key value) := by
  unfold readPair
  split <;> simp [Error.Named, Cause.atField]

theorem readEntry_named (field : String) (value : Json) :
    Yields (fun _ => True) Error.Named (c.readEntry field value) := by
  unfold readEntry
  split
  · split
    · exact readTriple_named _
    · simp [Error.Named, Cause.atField]
  · exact readPair_named field _ _
  · simp [Error.Named, Cause.atField]

theorem readMetadata_named (field : String) (value : Json) :
    Yields (fun _ => True) Error.Named (c.readMetadata field value) := by
  unfold readMetadata
  split
  · trivial
  · exact (Yields.mapM fun item _ => readEntry_named field item).map fun _ _ => trivial
  · exact (Yields.mapM fun entry _ => readPair_named field entry.1 entry.2).map fun _ _ => trivial
  · simp [Error.Named, Cause.atField]

theorem readField_malformed {field : String} {type : FieldType} {value : Json}
    (htype : type ≠ .metadata) (h : c.readField field type value = .error fault) :
    fault.Named ∧ fault.kind = .malformed := by
  cases type with
  | integer =>
      simp only [readField, readInteger] at h
      split at h
      · cases h
      · split at h
        · cases h
        · cases h
          exact ⟨rfl, rfl⟩
      · cases h
        exact ⟨rfl, rfl⟩
  | text =>
      simp only [readField, readText] at h
      split at h
      · cases h
      · cases h
      · cases h
        exact ⟨rfl, rfl⟩
  | metadata => exact absurd rfl htype

theorem readField_named {field : String} {type : FieldType} {value : Json}
    (h : c.readField field type value = .error fault) : fault.Named := by
  by_cases htype : type = .metadata
  · subst htype
    rw [readField, map_eq_error_iff] at h
    exact (readMetadata_named field value).fault h
  · exact (readField_malformed htype h).1

theorem readTriple_malformed {members : List (String × Json)} (hknown : c.knowsType members = true)
    (h : c.readTriple members = .error fault) : fault.kind = .malformed := by
  -- With a known type, only the key and the value are left to go wrong.
  have htag : (c.types.kindFor? (typeTag members)).isSome = true := by
    unfold knowsType at hknown
    unfold typeTag
    split at hknown
    · next tag hget => simpa [hget] using hknown
    · cases hknown
  unfold readTriple at h
  split at h
  · split at h
    · next hnone => simp [hnone] at htag
    · dsimp only at h
      split at h
      · cases h
      · cases h
        rfl
  · cases h
    rfl

theorem taggedKind_malformed {members : List (String × Json)}
    (h : taggedKind members = .error fault) : fault.Named ∧ fault.kind = .malformed := by
  unfold taggedKind at h
  split at h
  · cases h
  · cases h
  · cases h
  · cases h
    exact ⟨rfl, rfl⟩

theorem checkLocationTag_malformed {members : List (String × Json)}
    (h : checkLocationTag members = .error fault) : fault.Named ∧ fault.kind = .malformed := by
  unfold checkLocationTag at h
  split at h
  · next htag =>
      cases h
      exact taggedKind_malformed htag
  · cases h
  · cases h
  · cases h
    exact ⟨rfl, rfl⟩

/-- An object without any use is one for which there is no default kind. -/
theorem role_fault {members : List (String × Json)} (h : c.role members = .error fault) :
    (fault.Named ∧ fault.kind = .malformed) ∨
      fault.kind = .noTypeInformation ∧ c.defaultKind = none := by
  unfold role at h
  split at h
  · next htag =>
      cases h
      exact .inl (taggedKind_malformed htag)
  · cases h
  · split at h
    · next hdefault =>
        split at h
        · cases h
        · cases h
          exact .inr ⟨rfl, hdefault⟩
    · split at h
      · cases h
      · cases h

theorem knowsType_of_role {members : List (String × Json)} (hdefault : c.defaultKind ≠ none)
    (h : c.role members = .ok .triple) : c.knowsType members = true := by
  unfold role at h
  split at h
  · cases h
  · cases h
  · split at h
    · next hnone => exact absurd hnone hdefault
    · split at h
      · next htriple =>
          rw [Bool.and_eq_true] at htriple
          exact htriple.2
      · cases h

end Codec

/-! ## Faults of extra fields that are written again -/

/-- The error says that there is no tag for the type of a metadata entry. -/
structure Error.OfWriting (c : Codec) (e : Error) : Prop where
  kind : e.kind = .unsupportedType
  named : e.Named
  path : e.path = none
  incomplete : ¬c.types.Complete

theorem Record.isFinite_metadata {r : Record s} (h : r.Obeys .finite) {m : Metadata}
    (hm : r.metadata? = some m) : m.IsFinite :=
  h.named .metadata m hm

theorem Record.isFinite_versionMetadata {r : Record s} (h : r.Obeys .finite) {m : Metadata}
    (hm : r.versionMetadata? = some m) : m.IsFinite :=
  h.named .versionMetadata m hm

theorem Entity.isFinite_mappings {e : Entity} (h : e.Obeys .finite) :
    ∀ m ∈ e.mappings, m.IsFinite := by
  intro m hm
  cases e with
  | dataset d =>
      simp only [mappings, List.mem_append, List.mem_flatMap, Option.mem_toList] at hm
      rcases hm with (hm | hm) | ⟨location, hlocation, hm⟩
      · exact Record.isFinite_metadata h.record hm
      · exact Record.isFinite_versionMetadata h.record hm
      · exact Record.isFinite_metadata (h.locations location hlocation) hm
  | folder r =>
      rw [mappings, Option.mem_toList] at hm
      exact Record.isFinite_metadata h hm
  | group r =>
      rw [mappings, Option.mem_toList] at hm
      exact Record.isFinite_metadata h hm
  | location r =>
      rw [mappings, Option.mem_toList] at hm
      exact Record.isFinite_metadata h hm

namespace Codec

theorem encodeTriple_fault {entry : String × Scalar} (hfinite : entry.2.IsFinite)
    (h : c.encodeTriple entry = .error fault) : fault.OfWriting c := by
  have herror := encodeTriple_error h
  refine ⟨herror.2.1, by simp [Error.Named, herror.2.2.1], herror.2.2.2, ?_⟩
  intro hcomplete
  rcases hcomplete entry.2.kind with ⟨tag, htag⟩
  rcases herror.1 with hnone | hinfinite
  · simp [htag] at hnone
  · exact hinfinite hfinite

theorem encodeMetadata_fault {m : Metadata} (hfinite : m.IsFinite)
    (h : c.encodeMetadata m = .error fault) : fault.OfWriting c := by
  rw [encodeMetadata, map_eq_error_iff] at h
  obtain ⟨entry, hmem, hentry⟩ := exists_mem_of_mapM_eq_error h
  exact encodeTriple_fault (hfinite entry hmem) hentry

theorem encodeEntity_fault {e : Entity} (hfinite : e.Obeys .finite)
    (h : c.encodeEntity e = .error fault) : fault.OfWriting c := by
  rw [encodeEntity_failsAlike c e fault] at h
  obtain ⟨entry, hmem, hentry⟩ := exists_mem_of_mapM_eq_error h
  obtain ⟨m, hm, hentries⟩ := List.mem_flatMap.mp hmem
  exact encodeTriple_fault (Entity.isFinite_mappings hfinite m hm entry hentries) hentry

theorem canonical_fault {d : Decoded} (hfinite : d.IsFinite)
    (h : c.canonical d = .error fault) : fault.OfWriting c := by
  induction hfinite with
  | entity hentity =>
      rw [canonical] at h
      exact encodeEntity_fault hentity h
  | pair hscalar =>
      rw [canonical] at h
      exact encodeTriple_fault hscalar h
  | list _ ih =>
      rw [canonical, canonicalAll_eq_mapM, map_eq_error_iff] at h
      obtain ⟨item, hmem, hitem⟩ := exists_mem_of_mapM_eq_error h
      exact ih item hmem hitem
  | json value => cases h

/-- The member is read, but what was read of it cannot be written. -/
def Unkept (c : Codec) (member : String × Json) (fault : Error) : Prop :=
  (member.1 = Field.versionMetadata.key ∧
      ∃ m, c.readMetadata member.1 member.2 = .ok m ∧ c.storedMetadata m = .error fault) ∨
    ∃ d, c.decode member.2 = .ok d ∧ c.canonical d = .error fault

theorem Unkept.ofWriting {member : String × Json} (h : c.Unkept member fault) :
    fault.OfWriting c := by
  rcases h with ⟨-, m, hread, hstored⟩ | ⟨d, hread, hcanonical⟩
  · have hfinite : m.IsFinite := (readMetadata_yields _ _).result hread
    unfold storedMetadata at hstored
    split at hstored
    · exact encodeMetadata_fault hfinite hstored
    · cases hstored
  · exact canonical_fault (c.finiteResults.decode hread) hcanonical

end Codec

/-! ## The places of a document -/

/-- A document, or a member of an object that is read in a shape. -/
inductive Place where
  | document (value : Json)
  | member (s : Shape) (key : String) (value : Json)

namespace Codec

/-- One of the ways in which reading goes wrong at a place, and the error that it gives. -/
inductive Fault (c : Codec) : Place → Error → Prop
  | item {items item e} (hitem : item ∈ items) (h : Fault c (.document item) e) :
      Fault c (.document (.array items)) e
  | role {members e} (h : c.role members = .error e) : Fault c (.document (.object members)) e
  | triple {members e} (hrole : c.role members = .ok .triple)
      (h : c.readTriple members = .error e) : Fault c (.document (.object members)) e
  | entity {members kind member e} (hrole : c.role members = .ok (.entity kind))
      (hmember : member ∈ members) (h : Fault c (.member kind.shape member.1 member.2) e) :
      Fault c (.document (.object members)) e
  | field {s f value e} (has : f ∈ s.fields) (h : c.readField f.key f.type value = .error e) :
      Fault c (.member s f.key value) e
  | locationsNotArray {value} (h : ∀ items, value ≠ .array items) :
      Fault c (.member .dataset Shape.locationsKey value)
        (Cause.locationsNotArray.atField Shape.locationsKey)
  | locationNotObject {items item} (hitem : item ∈ items) (h : ∀ members, item ≠ .object members) :
      Fault c (.member .dataset Shape.locationsKey (.array items))
        (Cause.locationNotObject.atField Shape.locationsKey)
  | locationTag {items members e} (hitem : .object members ∈ items)
      (h : checkLocationTag members = .error e) :
      Fault c (.member .dataset Shape.locationsKey (.array items)) e
  | location {items members member e} (hitem : .object members ∈ items)
      (htag : checkLocationTag members = .ok ()) (hmember : member ∈ members)
      (h : Fault c (.member .location member.1 member.2) e) :
      Fault c (.member .dataset Shape.locationsKey (.array items)) e
  | versionMetadata {s value e} (h : c.readMetadata Field.versionMetadata.key value = .error e) :
      Fault c (.member s Field.versionMetadata.key value) e
  | extra {s key value e} (hkey : key ∉ s.ownKeys) (h : Fault c (.document value) e) :
      Fault c (.member s key value) (e.orField key)
  | unkept {s key value e} (hkey : key ∉ s.ownKeys) (h : c.Unkept (key, value) e) :
      Fault c (.member s key value) e

theorem fault_of_extra {key : String} {value : Json} (hkey : key ∉ s.ownKeys)
    (hdocument : ∀ {e : Error}, c.decode value = .error e → c.Fault (.document value) e)
    (h : c.canonicalExtra key value = .error fault) : c.Fault (.member s key value) fault := by
  by_cases hversion : key = Field.versionMetadata.key
  · subst hversion
    rw [canonicalExtra, if_pos rfl, bind_eq_error_iff] at h
    rcases h with hread | ⟨m, hread, hstored⟩
    · exact .versionMetadata hread
    · exact .unkept hkey (.inl ⟨rfl, m, hread, hstored⟩)
  · rw [canonicalExtra, if_neg hversion] at h
    cases hread : c.decode value with
    | error e =>
        simp only [hread, stored, Except.error.injEq] at h
        subst h
        exact .extra hkey (hdocument hread)
    | ok d =>
        rw [hread, stored] at h
        exact .unkept hkey (.inr ⟨d, hread, h⟩)

theorem fault_of_readMember {key : String} {value : Json}
    (hdocument : ∀ {e : Error}, c.decode value = .error e → c.Fault (.document value) e)
    (hlocations : ∀ {e : Error}, c.readLocations value = .error e →
      c.Fault (.member .dataset Shape.locationsKey value) e)
    (h : c.readMember s key value = .error fault) : c.Fault (.member s key value) fault := by
  cases hfield : s.field? key with
  | some field =>
      obtain ⟨f, has⟩ := field
      have hkey : f.key = key := Shape.key_of_field? hfield
      subst hkey
      rw [readMember_field c has, map_eq_error_iff] at h
      exact .field has h
  | none =>
      by_cases hplace : s = .dataset ∧ key = Shape.locationsKey
      · obtain ⟨rfl, rfl⟩ := hplace
        rw [readMember_locations, map_eq_error_iff] at h
        exact hlocations h
      · rw [readMember_extra c value hfield hplace, map_eq_error_iff] at h
        refine fault_of_extra ?_ hdocument h
        rw [Shape.mem_ownKeys]
        rintro (⟨f, has, rfl⟩ | hlocationsKey)
        · simp [Shape.field?_key has] at hfield
        · exact hplace hlocationsKey

mutual

/-- Every error of reading is that of a fault. -/
theorem fault_of_decode :
    (value : Json) → {e : Error} → c.decode value = .error e → c.Fault (.document value) e
  | .array items, _, h => by
      rw [decode_array, map_eq_error_iff] at h
      obtain ⟨item, hitem, hfault⟩ := fault_of_items items h
      exact .item hitem hfault
  | .object members, _, h => by
      cases hrole : c.role members with
      | error e =>
          simp only [decode, hrole, Except.error.injEq] at h
          subst h
          exact .role hrole
      | ok role =>
          cases role with
          | triple =>
              rw [decode_object_of_triple hrole, map_eq_error_iff] at h
              exact .triple hrole h
          | entity kind =>
              rw [decode_object_of_entity hrole, map_eq_error_iff] at h
              obtain ⟨member, hmember, hfault⟩ := fault_of_members kind.shape members h
              exact .entity hrole hmember hfault
  | .null, _, h => nomatch h
  | .bool _, _, h => nomatch h
  | .number _, _, h => nomatch h
  | .string _, _, h => nomatch h

theorem fault_of_items :
    (items : List Json) → {e : Error} → items.mapM c.decode = .error e →
      ∃ item ∈ items, c.Fault (.document item) e
  | [], _, h => nomatch h
  | item :: rest, _, h => by
      rw [List.mapM_cons, bind_eq_error_iff] at h
      rcases h with hitem | ⟨_, -, hrest⟩
      · exact ⟨item, List.mem_cons_self, fault_of_decode item hitem⟩
      · rw [bind_eq_error_iff] at hrest
        rcases hrest with hrest | ⟨_, -, hpure⟩
        · obtain ⟨other, hother, hfault⟩ := fault_of_items rest hrest
          exact ⟨other, List.mem_cons_of_mem item hother, hfault⟩
        · cases hpure

theorem fault_of_members (s : Shape) :
    (members : List (String × Json)) → {e : Error} → c.readMembers s members = .error e →
      ∃ member ∈ members, c.Fault (.member s member.1 member.2) e
  | [], _, h => nomatch h
  | (key, value) :: rest, _, h => by
      rw [readMembers_cons, bind_eq_error_iff] at h
      rcases h with hmember | ⟨_, -, hrest⟩
      · refine ⟨(key, value), List.mem_cons_self, ?_⟩
        exact fault_of_readMember (fault_of_decode value) (fault_of_locations value) hmember
      · rw [map_eq_error_iff] at hrest
        obtain ⟨other, hother, hfault⟩ := fault_of_members s rest hrest
        exact ⟨other, List.mem_cons_of_mem (key, value) hother, hfault⟩

theorem fault_of_locations :
    (value : Json) → {e : Error} → c.readLocations value = .error e →
      c.Fault (.member .dataset Shape.locationsKey value) e
  | .null, _, h => nomatch h
  | .array items, _, h => by
      rw [readLocations, readLocationItems_eq_mapM] at h
      exact fault_of_locationItems items (fun _ => id) h
  | .object _, _, h => by
      cases h
      exact .locationsNotArray (by simp)
  | .bool _, _, h => by
      cases h
      exact .locationsNotArray (by simp)
  | .number _, _, h => by
      cases h
      exact .locationsNotArray (by simp)
  | .string _, _, h => by
      cases h
      exact .locationsNotArray (by simp)

-- The recursion is on the items that are left, while the fault is one of the whole array.
theorem fault_of_locationItems {all : List Json} :
    (items : List Json) → {e : Error} → (∀ item ∈ items, item ∈ all) →
      items.mapM c.readLocation = .error e →
      c.Fault (.member .dataset Shape.locationsKey (.array all)) e
  | [], _, _, h => nomatch h
  | .object members :: rest, _, hall, h => by
      rw [List.forall_mem_cons] at hall
      rw [List.mapM_cons, bind_eq_error_iff] at h
      rcases h with hlocation | ⟨_, -, hrest⟩
      · rw [readLocation, bind_eq_error_iff] at hlocation
        rcases hlocation with htag | ⟨⟨⟩, htag, hmembers⟩
        · exact .locationTag hall.1 htag
        · rw [bind_ok_eq_map, map_eq_error_iff] at hmembers
          obtain ⟨member, hmember, hfault⟩ := fault_of_members .location members hmembers
          exact .location hall.1 htag hmember hfault
      · rw [bind_eq_error_iff] at hrest
        rcases hrest with hrest | ⟨_, -, hpure⟩
        · exact fault_of_locationItems rest hall.2 hrest
        · cases hpure
  | .null :: _, _, hall, h => by
      cases h
      exact .locationNotObject (hall _ List.mem_cons_self) (by simp)
  | .bool _ :: _, _, hall, h => by
      cases h
      exact .locationNotObject (hall _ List.mem_cons_self) (by simp)
  | .number _ :: _, _, hall, h => by
      cases h
      exact .locationNotObject (hall _ List.mem_cons_self) (by simp)
  | .string _ :: _, _, hall, h => by
      cases h
      exact .locationNotObject (hall _ List.mem_cons_self) (by simp)
  | .array _ :: _, _, hall, h => by
      cases h
      exact .locationNotObject (hall _ List.mem_cons_self) (by simp)

end

end Codec

/-! ## Objects within a document -/

namespace Json

variable {items : List Json} {item : Json} {members nested : List (String × Json)}
  {member : String × Json}

theorem objectsOfItems_eq_flatMap (items : List Json) :
    objectsOfItems items = items.flatMap objects := by
  induction items with
  | nil => rfl
  | cons item rest ih => rw [objectsOfItems, ih, List.flatMap_cons]

theorem objectsOfMembers_eq_flatMap (members : List (String × Json)) :
    objectsOfMembers members = members.flatMap fun member => member.2.objects := by
  induction members with
  | nil => rfl
  | cons member rest ih => rw [objectsOfMembers, ih, List.flatMap_cons]

theorem mem_objects_of_item (hitem : item ∈ items) (h : nested ∈ item.objects) :
    nested ∈ (array items).objects := by
  rw [objects, objectsOfItems_eq_flatMap]
  exact List.mem_flatMap.mpr ⟨item, hitem, h⟩

theorem mem_objects_self (members : List (String × Json)) : members ∈ (object members).objects :=
  List.mem_cons_self

theorem mem_objects_of_member (hmember : member ∈ members) (h : nested ∈ member.2.objects) :
    nested ∈ (object members).objects := by
  rw [objects, objectsOfMembers_eq_flatMap]
  exact List.mem_cons_of_mem members (List.mem_flatMap.mpr ⟨member, hmember, h⟩)

/-- No object in the document has a member for metadata. -/
def MetadataFree (value : Json) : Prop :=
  ∀ members ∈ value.objects, Field.metadata.key ∉ Entries.keys members ∧
    Field.versionMetadata.key ∉ Entries.keys members

theorem MetadataFree.of_array (h : (array items).MetadataFree) (hitem : item ∈ items) :
    item.MetadataFree :=
  fun nested hnested => h nested (mem_objects_of_item hitem hnested)

theorem MetadataFree.of_object (h : (object members).MetadataFree) (hmember : member ∈ members) :
    member.2.MetadataFree :=
  fun nested hnested => h nested (mem_objects_of_member hmember hnested)

end Json

namespace Codec

/-- The object is read in the shape: as an entry of its kind, or as one of the locations of a
dataset. -/
def ReadsAs (c : Codec) (members : List (String × Json)) (s : Shape) : Prop :=
  (∃ kind, c.role members = .ok (.entity kind) ∧ kind.shape = s) ∨
    checkLocationTag members = .ok () ∧ s = .location

/-- The document has an extra field somewhere that is read but cannot be written. -/
def HasUnkept (c : Codec) (value : Json) (fault : Error) : Prop :=
  ∃ members ∈ value.objects, ∃ s, c.ReadsAs members s ∧
    ∃ member ∈ members, member.1 ∉ s.ownKeys ∧ c.Unkept member fault

end Codec

def Place.HasUnkept (c : Codec) (fault : Error) : Place → Prop
  | .document value => c.HasUnkept value fault
  | .member s key value =>
    (key ∉ s.ownKeys ∧ c.Unkept (key, value) fault) ∨ c.HasUnkept value fault

def Place.MetadataFree : Place → Prop
  | .document value => value.MetadataFree
  | .member _ key value =>
    key ≠ Field.metadata.key ∧ key ≠ Field.versionMetadata.key ∧ value.MetadataFree

theorem Place.metadataFree_of_member {members : List (String × Json)} {member : String × Json}
    (h : (Json.object members).MetadataFree) (hmember : member ∈ members) :
    (Place.member s member.1 member.2).MetadataFree := by
  have hkeys := h members (Json.mem_objects_self members)
  have hkey : member.1 ∈ Entries.keys members := Entries.mem_keys_of_mem hmember
  refine ⟨?_, ?_, h.of_object hmember⟩
  · rintro hmetadata
    exact hkeys.1 (hmetadata ▸ hkey)
  · rintro hversion
    exact hkeys.2 (hversion ▸ hkey)

namespace Codec

theorem HasUnkept.of_item {items : List Json} {item : Json} (hitem : item ∈ items)
    (h : c.HasUnkept item fault) : c.HasUnkept (.array items) fault := by
  obtain ⟨members, hmembers, hunkept⟩ := h
  exact ⟨members, Json.mem_objects_of_item hitem hmembers, hunkept⟩

theorem HasUnkept.of_member {members : List (String × Json)} {member : String × Json}
    (hreads : c.ReadsAs members s) (hmember : member ∈ members)
    (h : (Place.member s member.1 member.2).HasUnkept c fault) :
    c.HasUnkept (.object members) fault := by
  rcases h with ⟨hkey, hunkept⟩ | ⟨nested, hnested, hunkept⟩
  · exact ⟨members, Json.mem_objects_self members, s, hreads, member, hmember, hkey, hunkept⟩
  · exact ⟨nested, Json.mem_objects_of_member hmember hnested, hunkept⟩

/-! ## What the error of a fault says -/

namespace Fault

variable {place : Place}

/-- Only a document by itself can have a fault that concerns no field. -/
theorem named_or (h : c.Fault place fault) :
    fault.Named ∨ (∃ value, place = .document value) ∧ fault.kind = .noTypeInformation ∧
      c.defaultKind = none := by
  induction h with
  | item hitem h ih =>
      rcases ih with hnamed | ⟨-, hunknown⟩
      · exact .inl hnamed
      · exact .inr ⟨⟨_, rfl⟩, hunknown⟩
  | role h =>
      rcases role_fault h with hmalformed | hunknown
      · exact .inl hmalformed.1
      · exact .inr ⟨⟨_, rfl⟩, hunknown⟩
  | triple hrole h => exact .inl ((readTriple_named _).fault h)
  | entity hrole hmember h ih =>
      -- A member is no document, so what was wrong with it has a name.
      rcases ih with hnamed | ⟨⟨value, hplace⟩, -⟩
      · exact .inl hnamed
      · cases hplace
  | field has h => exact .inl (readField_named h)
  | locationsNotArray h => exact .inl rfl
  | locationNotObject hitem h => exact .inl rfl
  | locationTag hitem h => exact .inl (checkLocationTag_malformed h).1
  | location hitem htag hmember h ih =>
      rcases ih with hnamed | ⟨⟨value, hplace⟩, -⟩
      · exact .inl hnamed
      · cases hplace
  | versionMetadata h => exact .inl ((readMetadata_named _ _).fault h)
  | extra hkey h ih => exact .inl (Error.named_orField _ _)
  | unkept hkey h => exact .inl h.ofWriting.named

theorem named_of_member {key : String} {value : Json} (h : c.Fault (.member s key value) fault) :
    fault.Named := by
  rcases h.named_or with hnamed | ⟨⟨document, hplace⟩, -⟩
  · exact hnamed
  · cases hplace

/-- An error either says that something cannot be read, or it is that of an extra field that cannot
be written. -/
theorem ofReading_or (h : c.Fault place fault) :
    fault.OfReading ∨ fault.OfWriting c ∧ place.HasUnkept c fault := by
  induction h with
  | item hitem h ih =>
      rcases ih with hreading | ⟨hwriting, hunkept⟩
      · exact .inl hreading
      · exact .inr ⟨hwriting, hunkept.of_item hitem⟩
  | role h => exact .inl (role_error h)
  | triple hrole h => exact .inl ((readTriple_yields _).fault h)
  | entity hrole hmember h ih =>
      rcases ih with hreading | ⟨hwriting, hunkept⟩
      · exact .inl hreading
      · exact .inr ⟨hwriting, .of_member (.inl ⟨_, hrole, rfl⟩) hmember hunkept⟩
  | field has h => exact .inl ((readField_yields _ _ _).fault h)
  | locationsNotArray h => exact .inl ⟨.inl rfl, rfl⟩
  | locationNotObject hitem h => exact .inl ⟨.inl rfl, rfl⟩
  | locationTag hitem h => exact .inl (checkLocationTag_error h)
  | location hitem htag hmember h ih =>
      rcases ih with hreading | ⟨hwriting, hunkept⟩
      · exact .inl hreading
      · have hlocation := HasUnkept.of_member (.inr ⟨htag, rfl⟩) hmember hunkept
        exact .inr ⟨hwriting, .inr (hlocation.of_item hitem)⟩
  | versionMetadata h => exact .inl ((readMetadata_yields _ _).fault h)
  | extra hkey h ih =>
      rcases ih with hreading | ⟨hwriting, hunkept⟩
      · exact .inl (hreading.orField _)
      · -- The key of the metadata entry stays in the error, at whatever depth it was found.
        rw [Error.orField_of_named hwriting.named]
        exact .inr ⟨hwriting, .inr hunkept⟩
  | unkept hkey h => exact .inr ⟨h.ofWriting, .inl ⟨hkey, h⟩⟩

/-- With a default kind, types are asked for in metadata only. -/
theorem kind_of_metadataFree (hdefault : c.defaultKind ≠ none) (h : c.Fault place fault)
    (hfree : place.MetadataFree) : fault.kind = .malformed ∨ fault.kind = .unsupportedType := by
  induction h with
  | item hitem h ih => exact ih (hfree.of_array hitem)
  | role h =>
      rcases role_fault h with hmalformed | hunknown
      · exact .inl hmalformed.2
      · exact absurd hunknown.2 hdefault
  | triple hrole h => exact .inl (readTriple_malformed (knowsType_of_role hdefault hrole) h)
  | entity hrole hmember h ih => exact ih (Place.metadataFree_of_member hfree hmember)
  | @field s f value e has h =>
      have htype : f.type ≠ .metadata := by
        cases f <;> simp [Field.type, Place.MetadataFree] at hfree ⊢
      exact .inl (readField_malformed htype h).2
  | locationsNotArray h => exact .inl rfl
  | locationNotObject hitem h => exact .inl rfl
  | locationTag hitem h => exact .inl (checkLocationTag_malformed h).2
  | location hitem htag hmember h ih =>
      exact ih (Place.metadataFree_of_member (hfree.2.2.of_array hitem) hmember)
  | versionMetadata h => exact absurd rfl hfree.2.1
  | extra hkey h ih =>
      rw [Error.kind_orField]
      exact ih hfree.2.2
  | unkept hkey h => exact .inr h.ofWriting.kind

end Fault

theorem named_of_tagged {members : List (String × Json)} {kind : EntityKind}
    (htag : taggedKind members = .ok (some kind))
    (h : c.Fault (.document (.object members)) fault) : fault.Named := by
  have hentity : c.role members = .ok (.entity kind) := by
    rw [role, htag]
  cases h with
  | role h => simp [hentity] at h
  | triple hrole h => simp [hentity] at hrole
  | entity hrole hmember h => exact h.named_of_member

/-- What the error of a document says: it names a field unless nothing says what an object is, the
type of something is asked for in metadata only if there is a default kind, and types are missing
for extra fields only. -/
theorem decode_error_says {value : Json} (h : c.decode value = .error fault) :
    (∀ members kind, value = .object members → taggedKind members = .ok (some kind) →
        fault.field.isSome = true) ∧
      (fault.field = none → fault.kind = .noTypeInformation ∧ c.defaultKind = none) ∧
      (c.defaultKind ≠ none → value.MetadataFree →
        fault.kind ≠ .noTypeInformation ∧ fault.kind ≠ .unknownMetadataType) ∧
      (fault.kind = .malformed ∨ fault.kind = .unknownMetadataType ∨
        fault.kind = .noTypeInformation ∨
        fault.kind = .unsupportedType ∧ ¬c.types.Complete ∧ c.HasUnkept value fault) ∧
      fault.path = none := by
  have hfault := fault_of_decode value h
  refine ⟨?_, ?_, ?_, ?_, ?_⟩
  · rintro members kind rfl htag
    exact named_of_tagged htag hfault
  · intro hnone
    rcases hfault.named_or with hnamed | ⟨-, hunknown⟩
    · simp [Error.Named, hnone] at hnamed
    · exact hunknown
  · intro hdefault hfree
    rcases hfault.kind_of_metadataFree hdefault hfree with hkind | hkind <;> simp [hkind]
  · rcases hfault.ofReading_or with hreading | ⟨hwriting, hunkept⟩
    · rcases hreading.kind with hkind | hkind | hkind <;> simp [hkind]
    · simp [hwriting.kind, hwriting.incomplete, show c.HasUnkept value fault from hunkept]
  · rcases hfault.ofReading_or with hreading | ⟨hwriting, -⟩
    · exact hreading.path
    · exact hwriting.path

/-- A location has a list of folders as an extra field, and the table has no tag for the run of a
folder.  An object in a list has no tag, and there is no default kind. -/
theorem decode_error_says_nested :
    let c : Codec := ⟨⟨[(.decimal, "decimal"), (.text, "string")]⟩, none⟩
    let folder : Json := .object [("_type", .string "folder"),
      ("metadata", .object [("run", .ofInt64 7)])]
    let value : Json := .object [("_type", .string "dataset"), ("name", .string "muons"),
      ("locations", .array [.object [("site", .string "SLAC"), ("parents", .array [folder])]])]
    let untagged : Json := .array [.object [("name", .string "muons")]]
    (∃ fault, c.decode value = .error fault ∧ fault.field = some "run" ∧
        ¬c.types.Complete ∧ c.HasUnkept value fault ∧ fault.path = none) ∧
      ∃ fault, c.decode untagged = .error fault ∧ fault.field = none ∧
        fault.kind = .noTypeInformation := by
  intro c folder value untagged
  constructor
  · have hfault : c.decode value = .error ((Cause.noTag .integer).atField "run") := by rfl
    obtain ⟨-, -, -, hkinds, hpath⟩ := decode_error_says hfault
    rcases hkinds with hkind | hkind | hkind | ⟨-, hincomplete, hunkept⟩
    · cases hkind
    · cases hkind
    · cases hkind
    · exact ⟨_, hfault, rfl, hincomplete, hunkept, hpath⟩
  · have hfault : c.decode untagged = .error Cause.noTypeInformation.error := by rfl
    obtain ⟨-, hnone, -⟩ := decode_error_says hfault
    exact ⟨_, hfault, rfl, (hnone rfl).1⟩

end Codec

end DataCatalog
