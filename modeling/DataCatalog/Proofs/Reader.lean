import DataCatalog.Codec.Decode
import DataCatalog.Proofs.MetadataRoundTrip
import DataCatalog.Proofs.RecordEdits

/-!
# How documents are read

The reader goes through a document once: lists item by item and objects member by member.  This
file states it in these terms, with one equation for each kind of member.  Whatever is to hold of
every value that is read, and of every error, then follows from one rule for each thing that can be
read; the induction over the document is made once, in `ReadingRules.decode`.
-/

namespace DataCatalog

def EntityKind.shape : EntityKind → Shape
  | .dataset => .dataset
  | .folder => .container
  | .group => .container
  | .location => .location

/-- The entry of a kind that the edits build. -/
def Entity.build : (kind : EntityKind) → List (Edit kind.shape) → Entity
  | .dataset, edits => .dataset (.ofEdits edits)
  | .folder, edits => .folder (.ofEdits edits)
  | .group, edits => .group (.ofEdits edits)
  | .location, edits => .location (.ofEdits edits)

theorem Entity.obeys_build {rule : FieldRule} (kind : EntityKind)
    {edits : List (Edit kind.shape)} (h : ∀ e ∈ edits, e.Obeys rule) :
    (Entity.build kind edits).Obeys rule := by
  cases kind with
  | dataset => exact Dataset.obeys_ofEdits h
  | folder => exact Record.obeys_ofEdits h
  | group => exact Record.obeys_ofEdits h
  | location => exact Record.obeys_ofEdits h

theorem Shape.field?_key {s : Shape} {f : Field} (has : f ∈ s.fields) :
    s.field? f.key = some ⟨f, has⟩ := by
  cases hfind : s.field? f.key with
  | none =>
      have hnone := List.find?_eq_none.mp hfind ⟨f, has⟩ (List.mem_attach _ _)
      simp at hnone
  | some g =>
      have hkey : g.val = f := Field.key_injective (Shape.key_of_field? hfind)
      exact congrArg some (Subtype.ext hkey)

namespace Codec

/-! ## Lists -/

theorem decodeAll_eq_mapM (c : Codec) (items : List Json) :
    c.decodeAll items = items.mapM c.decode := by
  induction items with
  | nil => rfl
  | cons item rest ih =>
      rw [decodeAll, List.mapM_cons, ih]
      rfl

theorem encodeAll_eq_mapM (c : Codec) (items : List Decoded) :
    c.encodeAll items = items.mapM c.encode := by
  induction items with
  | nil => rfl
  | cons item rest ih =>
      rw [encodeAll, List.mapM_cons, ih]
      rfl

theorem canonicalAll_eq_mapM (c : Codec) (items : List Decoded) :
    c.canonicalAll items = items.mapM c.canonical := by
  induction items with
  | nil => rfl
  | cons item rest ih =>
      rw [canonicalAll, List.mapM_cons, ih]
      rfl

/-- Reads one of the locations of a dataset. -/
def readLocation (c : Codec) : Json → Except Error Location
  | .object members => do
    checkLocationTag members
    let edits ← c.readMembers .location members
    .ok (.ofEdits edits)
  | _ => .error (Cause.locationNotObject.atField Shape.locationsKey)

theorem readLocationItems_eq_mapM (c : Codec) (items : List Json) :
    c.readLocationItems items = items.mapM c.readLocation := by
  induction items with
  | nil => rfl
  | cons item rest ih =>
      rw [List.mapM_cons, ← ih]
      cases item with
      | object members =>
          rw [readLocationItems, readLocation]
          cases checkLocationTag members with
          | error e => rfl
          | ok tag =>
              cases c.readMembers .location members <;> rfl
      | null => rfl
      | bool value => rfl
      | number value => rfl
      | string value => rfl
      | array items => rfl

/-! ## Documents -/

theorem decode_plain (c : Codec) {value : Json} (h : value.Plain) :
    c.decode value = .ok (.json value) := by
  cases value with
  | array items => cases h
  | object members => cases h
  | null => rfl
  | bool value => rfl
  | number value => rfl
  | string value => rfl

theorem decode_array (c : Codec) (items : List Json) :
    c.decode (.array items) = (items.mapM c.decode).map .list := by
  rw [decode, decodeAll_eq_mapM]

theorem decode_object_of_triple {c : Codec} {members : List (String × Json)}
    (h : c.role members = .ok .triple) :
    c.decode (.object members) =
      (c.readTriple members).map fun entry => .pair entry.1 entry.2 := by
  rw [decode, h]

theorem decode_object_of_entity {c : Codec} {members : List (String × Json)} {kind : EntityKind}
    (h : c.role members = .ok (.entity kind)) :
    c.decode (.object members) =
      (c.readMembers kind.shape members).map fun edits => .entity (.build kind edits) := by
  rw [decode, h]
  cases kind <;> rfl

/-- What an object has been read as: a metadata entry, or the entry that its members build. -/
theorem decode_object_cases {c : Codec} {members : List (String × Json)} {d : Decoded}
    (h : c.decode (.object members) = .ok d) :
    (∃ entry, c.role members = .ok .triple ∧ c.readTriple members = .ok entry ∧
        d = .pair entry.1 entry.2) ∨
      ∃ kind edits, c.role members = .ok (.entity kind) ∧
        c.readMembers kind.shape members = .ok edits ∧ d = .entity (.build kind edits) := by
  cases hrole : c.role members with
  | error e =>
      rw [decode, hrole] at h
      cases h
  | ok role =>
      cases role with
      | triple =>
          rw [decode_object_of_triple hrole] at h
          obtain ⟨entry, hentry, rfl⟩ := map_eq_ok_iff.mp h
          exact .inl ⟨entry, rfl, hentry, rfl⟩
      | entity kind =>
          rw [decode_object_of_entity hrole] at h
          obtain ⟨edits, hedits, rfl⟩ := map_eq_ok_iff.mp h
          exact .inr ⟨kind, edits, rfl, hedits, rfl⟩

/-- A metadata entry whose tag is known is one with every default kind. -/
theorem role_tripleMembers {c : Codec} {key tag : String} {value : Json} {kind : ScalarKind}
    (hkind : c.types.kindFor? tag = some kind) :
    c.role (tripleMembers key value tag) = .ok .triple := by
  have htag : taggedKind (tripleMembers key value tag) = .ok none := rfl
  have htype : Entries.get? "type" (tripleMembers key value tag) = some (.string tag) := rfl
  have hknown : c.knowsType (tripleMembers key value tag) = true := by
    simp only [knowsType, htype, hkind, Option.isSome_some]
  rw [role, htag]
  cases c.defaultKind with
  | none => rfl
  | some default => simp only [isTriple_tripleMembers, hknown, Bool.and_true, if_true]

/-! ## Members -/

/-- The form in which a member is kept as an extra field. -/
def canonicalExtra (c : Codec) (key : String) (value : Json) : Except Error Json :=
  if key = Field.versionMetadata.key then do
    let m ← c.readMetadata key value
    c.storedMetadata m
  else c.stored key (c.decode value)

/-- The edits that one member of an object makes. -/
def readMember (c : Codec) (s : Shape) (key : String) (value : Json) :
    Except Error (List (Edit s)) :=
  match s.field? key with
  | some ⟨field, has⟩ =>
    (c.readField key field.type value).map fun value? =>
      value?.toList.map (Edit.set field has)
  | none =>
    if h : s = .dataset ∧ key = Shape.locationsKey then
      let ⟨dataset, _⟩ := h
      (c.readLocations value).map fun items => [.locations dataset items]
    else (c.canonicalExtra key value).map fun value => [.extra key value]

theorem readMembers_cons (c : Codec) (s : Shape) (key : String) (value : Json)
    (rest : List (String × Json)) :
    c.readMembers s ((key, value) :: rest) =
      c.readMember s key value >>= fun edits => (c.readMembers s rest).map (edits ++ ·) := by
  simp only [← bind_ok_eq_map]
  rw [readMembers, readMember]
  cases s.field? key with
  | some field => rfl
  | none =>
      by_cases hlocations : s = .dataset ∧ key = Shape.locationsKey
      · obtain ⟨dataset, hkey⟩ := hlocations
        simp only [dif_pos (And.intro dataset hkey)]
      · simp only [dif_neg hlocations, canonicalExtra]
        by_cases hversion : key = Field.versionMetadata.key
        · simp only [if_pos hversion]
          cases c.readMetadata key value with
          | error e => rfl
          | ok m =>
              rw [ok_bind, ok_bind]
              cases c.storedMetadata m <;> rfl
        · simp only [if_neg hversion]

theorem readMembers_append (c : Codec) (s : Shape) (left right : List (String × Json)) :
    c.readMembers s (left ++ right) =
      c.readMembers s left >>= fun edits => (c.readMembers s right).map (edits ++ ·) := by
  induction left with
  | nil =>
      rw [List.nil_append, readMembers, ok_bind]
      cases c.readMembers s right <;> rfl
  | cons member rest ih =>
      obtain ⟨key, value⟩ := member
      rw [List.cons_append, readMembers_cons, readMembers_cons, ih]
      cases c.readMember s key value with
      | error e => rfl
      | ok first =>
          cases c.readMembers s rest with
          | error e => rfl
          | ok middle =>
              cases c.readMembers s right with
              | error e => rfl
              | ok last => simp

theorem readMember_field (c : Codec) {s : Shape} {f : Field} (has : f ∈ s.fields)
    (value : Json) :
    c.readMember s f.key value =
      (c.readField f.key f.type value).map fun value? =>
        value?.toList.map (Edit.set f has) := by
  simp only [readMember, Shape.field?_key has]

theorem readMember_locations (c : Codec) (value : Json) :
    c.readMember .dataset Shape.locationsKey value =
      (c.readLocations value).map fun items => [.locations rfl items] := rfl

theorem readMember_extra (c : Codec) {s : Shape} {key : String} (value : Json)
    (hfield : s.field? key = none) (hlocations : ¬(s = .dataset ∧ key = Shape.locationsKey)) :
    c.readMember s key value =
      (c.canonicalExtra key value).map fun value => [.extra key value] := by
  simp only [readMember, hfield, dif_neg hlocations]

/-! ## One rule for each thing that is read -/

/-- What is to hold of the values that are read (`good`), of the edits that members make
(`goodEdit`) and of the errors (`bad`), with the reason for each thing that can be read. -/
structure ReadingRules (c : Codec) (good : Decoded → Prop)
    (goodEdit : {s : Shape} → Edit s → Prop) (bad : Error → Prop) : Prop where
  plain : ∀ {value : Json}, value.Plain → good (.json value)
  list : ∀ {items : List Decoded}, (∀ item ∈ items, good item) → good (.list items)
  triple : ∀ members,
    Yields (fun entry => good (.pair entry.1 entry.2)) bad (c.readTriple members)
  entity : ∀ (kind : EntityKind) {edits : List (Edit kind.shape)},
    (∀ e ∈ edits, goodEdit e) → good (.entity (.build kind edits))
  role : ∀ {members e}, c.role members = .error e → bad e
  field : ∀ {s : Shape} {f : Field} (has : f ∈ s.fields) (value : Json),
    Yields (fun value? => ∀ v, value? = some v → goodEdit (.set f has v)) bad
      (c.readField f.key f.type value)
  versionMetadata : ∀ (s : Shape) (value : Json),
    Yields (fun stored => goodEdit (.extra Field.versionMetadata.key stored : Edit s)) bad
      (c.canonicalExtra Field.versionMetadata.key value)
  extra : ∀ (s : Shape) {key : String} {read : Except Error Decoded},
    key ≠ Field.versionMetadata.key → Yields good bad read →
      Yields (fun stored => goodEdit (.extra key stored : Edit s)) bad (c.stored key read)
  locations : ∀ {items : List Location},
    (∀ location ∈ items, location.BuiltBy goodEdit) → goodEdit (.locations rfl items)
  locationTag : ∀ {members e}, checkLocationTag members = .error e → bad e
  locationNotObject : bad (Cause.locationNotObject.atField Shape.locationsKey)
  locationsNotArray : bad (Cause.locationsNotArray.atField Shape.locationsKey)

namespace ReadingRules

variable {c : Codec} {good : Decoded → Prop} {goodEdit : {s : Shape} → Edit s → Prop}
  {bad : Error → Prop}

/-- Here the value of the member is given with what the induction says of it. -/
theorem readMember (rules : c.ReadingRules good goodEdit bad) (s : Shape) (key : String)
    {value : Json} (hdecode : Yields good bad (c.decode value))
    (hlocations : Yields (fun items => goodEdit (.locations rfl items)) bad
      (c.readLocations value)) :
    Yields (fun edits => ∀ e ∈ edits, goodEdit e) bad (c.readMember s key value) := by
  cases hfield : s.field? key with
  | some field =>
      obtain ⟨f, has⟩ := field
      have hkey : f.key = key := Shape.key_of_field? hfield
      subst hkey
      rw [readMember_field c has]
      refine (rules.field has value).map fun value? hvalue => ?_
      cases value? with
      | none => simp
      | some v => simpa using hvalue v rfl
  | none =>
      by_cases hplace : s = .dataset ∧ key = Shape.locationsKey
      · obtain ⟨rfl, rfl⟩ := hplace
        rw [readMember_locations]
        exact hlocations.map fun items hitems => by simpa using hitems
      · rw [readMember_extra c value hfield hplace]
        have hextra : Yields (fun stored => goodEdit (.extra key stored : Edit s)) bad
            (c.canonicalExtra key value) := by
          by_cases hversion : key = Field.versionMetadata.key
          · subst hversion
            exact rules.versionMetadata s value
          · rw [canonicalExtra, if_neg hversion]
            exact rules.extra s hversion hdecode
        exact hextra.map fun stored hstored => by simpa using hstored

mutual

/-- Everything that is read is good, and every error is of the expected kind. -/
theorem decode (rules : c.ReadingRules good goodEdit bad) :
    (value : Json) → Yields good bad (c.decode value)
  | .array items => by
      rw [decode_array]
      exact (rules.decodeItems items).map fun _ => rules.list
  | .object members => by
      cases hrole : c.role members with
      | error e =>
          rw [Codec.decode, hrole]
          exact rules.role hrole
      | ok role =>
          cases role with
          | triple =>
              rw [decode_object_of_triple hrole]
              exact (rules.triple members).map fun _ hentry => hentry
          | entity kind =>
              rw [decode_object_of_entity hrole]
              exact (rules.readMembers kind.shape members).map fun _ => rules.entity kind
  | .null => rules.plain trivial
  | .bool _ => rules.plain trivial
  | .number _ => rules.plain trivial
  | .string _ => rules.plain trivial

theorem decodeItems (rules : c.ReadingRules good goodEdit bad) :
    (items : List Json) →
      Yields (fun values => ∀ value ∈ values, good value) bad (items.mapM c.decode)
  | [] => Yields.mapM (by simp)
  | item :: rest => by
      have hitem := rules.decode item
      have hrest := rules.decodeItems rest
      rw [List.mapM_cons]
      refine hitem.bind fun value hvalue => hrest.bind fun values hvalues => ?_
      exact List.forall_mem_cons.mpr ⟨hvalue, hvalues⟩

theorem readMembers (rules : c.ReadingRules good goodEdit bad) (s : Shape) :
    (members : List (String × Json)) →
      Yields (fun edits => ∀ e ∈ edits, goodEdit e) bad (c.readMembers s members)
  | [] => by simp [Codec.readMembers]
  | (key, value) :: rest => by
      have hmember := rules.readMember s key (rules.decode value) (rules.readLocations value)
      have hrest := rules.readMembers s rest
      rw [readMembers_cons]
      refine hmember.bind fun edits hedits => hrest.map fun more hmore => ?_
      exact List.forall_mem_append.mpr ⟨hedits, hmore⟩

theorem readLocations (rules : c.ReadingRules good goodEdit bad) :
    (value : Json) →
      Yields (fun items => goodEdit (.locations rfl items)) bad (c.readLocations value)
  | .null => rules.locations (by simp)
  | .array items => by
      rw [Codec.readLocations, readLocationItems_eq_mapM]
      exact (rules.readLocationItems items).imp fun _ => rules.locations
  | .object _ => rules.locationsNotArray
  | .bool _ => rules.locationsNotArray
  | .number _ => rules.locationsNotArray
  | .string _ => rules.locationsNotArray

theorem readLocationItems (rules : c.ReadingRules good goodEdit bad) :
    (items : List Json) →
      Yields (fun locations => ∀ location ∈ locations, location.BuiltBy goodEdit) bad
        (items.mapM c.readLocation)
  | [] => Yields.mapM (by simp)
  | .object members :: rest => by
      have htag : Yields (fun _ => True) bad (checkLocationTag members) :=
        Yields.of_forall (fun _ _ => trivial) (fun _ => rules.locationTag)
      have hmembers := rules.readMembers .location members
      have hlocation : Yields (fun location => location.BuiltBy goodEdit) bad
          (c.readLocation (.object members)) := by
        rw [readLocation]
        exact htag.bind fun _ _ => hmembers.map fun edits hedits => ⟨edits, rfl, hedits⟩
      have hrest := rules.readLocationItems rest
      rw [List.mapM_cons]
      refine hlocation.bind fun location hgood => hrest.bind fun locations hgoods => ?_
      exact List.forall_mem_cons.mpr ⟨hgood, hgoods⟩
  | .null :: _ => rules.locationNotObject
  | .bool _ :: _ => rules.locationNotObject
  | .number _ :: _ => rules.locationNotObject
  | .string _ :: _ => rules.locationNotObject
  | .array _ :: _ => rules.locationNotObject

end

end ReadingRules

/-- What is to hold of the values that are read and of the fields of entries, where nothing is said
of errors. -/
structure ResultRules (c : Codec) (good : Decoded → Prop) (rule : FieldRule) : Prop where
  plain : ∀ {value : Json}, value.Plain → good (.json value)
  list : ∀ {items : List Decoded}, (∀ item ∈ items, good item) → good (.list items)
  triple : ∀ {members entry}, c.readTriple members = .ok entry → good (.pair entry.1 entry.2)
  entity : ∀ {e : Entity}, e.Obeys rule → good (.entity e)
  field : ∀ {f : Field} {value : Json} {v : f.Value},
    c.readField f.key f.type value = .ok (some v) → rule.named f v
  versionMetadata : ∀ {value : Json} {m : Metadata} {kept : Json},
    c.readMetadata Field.versionMetadata.key value = .ok m → c.storedMetadata m = .ok kept →
      rule.extra Field.versionMetadata.key kept
  extra : ∀ {key : String} {d : Decoded} {kept : Json}, key ≠ Field.versionMetadata.key → good d →
    c.canonical d = .ok kept → rule.extra key kept

theorem ResultRules.reading {c : Codec} {good : Decoded → Prop} {rule : FieldRule}
    (rules : c.ResultRules good rule) :
    c.ReadingRules good (Edit.Obeys rule) fun _ => True where
  plain := rules.plain
  list := rules.list
  triple members := .of_forall (fun _ => rules.triple) fun _ _ => trivial
  entity kind _ hedits := rules.entity (Entity.obeys_build kind hedits)
  role _ := trivial
  field has value := by
    refine .of_forall (fun value? hread v hv => ?_) fun _ _ => trivial
    subst hv
    exact rules.field hread
  versionMetadata s value := by
    refine .of_forall (fun kept hkept => ?_) fun _ _ => trivial
    rw [canonicalExtra, if_pos rfl] at hkept
    obtain ⟨m, hm, hstored⟩ := bind_eq_ok_iff.mp hkept
    exact rules.versionMetadata hm hstored
  extra s key read hversion hread := by
    refine .of_forall (fun kept hkept => ?_) fun _ _ => trivial
    cases read with
    | error e => cases hkept
    | ok d => exact rules.extra hversion hread hkept
  locations hitems location hmem := by
    obtain ⟨edits, rfl, hedits⟩ := hitems location hmem
    exact Record.obeys_ofEdits hedits
  locationTag _ := trivial
  locationNotObject := trivial
  locationsNotArray := trivial

theorem ResultRules.decode {c : Codec} {good : Decoded → Prop} {rule : FieldRule}
    (rules : c.ResultRules good rule) {value : Json} {d : Decoded} (h : c.decode value = .ok d) :
    good d :=
  (rules.reading.decode value).result h

end Codec

end DataCatalog
