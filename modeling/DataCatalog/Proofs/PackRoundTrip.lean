import DataCatalog.Proofs.JsonRoundTrip
import DataCatalog.Proofs.Rereading

/-!
# The text between writing and reading

Writing a value yields a document, and packing it yields the text of the document.  Unpacking reads
the document from the text and makes a value of it.  The text adds nothing: keys of written objects
are distinct, so that a document without doubles is read back as it was, and unpacking a packed
value is the same as reading the document.
-/

namespace DataCatalog

/-! ## Values that can be packed -/

/-- No object in an extra field has a key twice. -/
def FieldRule.wellFormed : FieldRule where
  named _ _ := True
  extra _ value := value.WellFormed

/-- No object in the value has a key twice. -/
inductive Decoded.WellFormed : Decoded → Prop
  | entity {e : Entity} (h : e.Obeys .wellFormed) : WellFormed (.entity e)
  | pair (key : String) (s : Scalar) : WellFormed (.pair key s)
  | list {items : List Decoded} (h : ∀ item ∈ items, WellFormed item) : WellFormed (.list items)
  | json {value : Json} (h : value.WellFormed) : WellFormed (.json value)

/-- What can be packed: records with or without a tag, metadata, scalars, what has been read, and
lists of these. -/
inductive Packable where
  | record {s : Shape} (r : Record s)
  | dataset (d : Dataset)
  | entity (e : Entity)
  | metadata (m : Metadata)
  | scalar (s : Scalar)
  | decoded (d : Decoded)
  | list (items : List Packable)

namespace Packable

mutual

def encode (c : Codec) : Packable → Except Error Json
  | .record r => (c.encodeRecord r).map .object
  | .dataset d => (c.encodeDataset d).map .object
  | .entity e => c.encodeEntity e
  | .metadata m => c.encodeMetadata m
  | .scalar s => Codec.encodeScalar s
  | .decoded d => c.encode d
  | .list items => (encodeAll c items).map .array

def encodeAll (c : Codec) : List Packable → Except Error (List Json)
  | [] => .ok []
  | item :: rest => do
    let first ← item.encode c
    let more ← encodeAll c rest
    .ok (first :: more)

end

def pack (c : Codec) (x : Packable) : Except Error String :=
  (x.encode c).map Json.render

theorem pack_decoded (c : Codec) (d : Decoded) : (decoded d).pack c = c.pack d := rfl

theorem encodeAll_eq_mapM (c : Codec) (items : List Packable) :
    encodeAll c items = items.mapM (encode c) := by
  induction items with
  | nil => rfl
  | cons item rest ih =>
      rw [encodeAll, List.mapM_cons, ih]
      rfl

/-- No object in the value has a key twice. -/
inductive WellFormed : Packable → Prop
  | record {s : Shape} {r : Record s} (h : r.Obeys .wellFormed) : WellFormed (.record r)
  | dataset {d : Dataset} (h : d.Obeys .wellFormed) : WellFormed (.dataset d)
  | entity {e : Entity} (h : e.Obeys .wellFormed) : WellFormed (.entity e)
  | metadata (m : Metadata) : WellFormed (.metadata m)
  | scalar (s : Scalar) : WellFormed (.scalar s)
  | decoded {d : Decoded} (h : d.WellFormed) : WellFormed (.decoded d)
  | list {items : List Packable} (h : ∀ item ∈ items, WellFormed item) : WellFormed (.list items)

end Packable

/-! ## Documents with distinct keys -/

namespace Json

theorem wellFormed_array_iff {items : List Json} :
    (array items).WellFormed ↔ ∀ item ∈ items, item.WellFormed := by
  rw [WellFormed]
  induction items with
  | nil => simp [ItemsWellFormed]
  | cons item rest ih => rw [ItemsWellFormed, ih, List.forall_mem_cons]

theorem wellFormed_object_iff {members : List (String × Json)} :
    (object members).WellFormed ↔
      (Entries.keys members).Nodup ∧ ∀ entry ∈ members, entry.2.WellFormed := by
  have hmembers : MembersWellFormed members ↔ ∀ entry ∈ members, entry.2.WellFormed := by
    induction members with
    | nil => simp [MembersWellFormed]
    | cons entry rest ih => rw [MembersWellFormed, ih, List.forall_mem_cons]
  rw [WellFormed, hmembers]

theorem wellFormed_append {left right : List (String × Json)}
    (hleft : (object left).WellFormed) (hright : (object right).WellFormed)
    (hdisjoint : ∀ key ∈ Entries.keys left, key ∉ Entries.keys right) :
    (object (left ++ right)).WellFormed := by
  rw [wellFormed_object_iff] at hleft hright ⊢
  rw [Entries.keys_append, List.nodup_append]
  refine ⟨⟨hleft.1, hright.1, ?_⟩, List.forall_mem_append.mpr ⟨hleft.2, hright.2⟩⟩
  rintro key hkey _ hother rfl
  exact hdisjoint key hkey hother

theorem wellFormed_of_plain {value : Json} (h : value.Plain) : value.WellFormed := by
  cases value with
  | array items => cases h
  | object members => cases h
  | _ => trivial

/-- Values that are written one by one make a list without repeated keys if each of them does. -/
theorem wellFormed_of_mapM {α : Type} {f : α → Except Error Json} {xs : List α}
    {values : List Json} (h : xs.mapM f = .ok values)
    (hf : ∀ x ∈ xs, ∀ value, f x = .ok value → value.WellFormed) :
    (array values).WellFormed := by
  rw [wellFormed_array_iff]
  intro value hvalue
  obtain ⟨x, hx, hwritten⟩ := exists_mem_of_mapM_eq_ok h hvalue
  exact hf x hx value hwritten

end Json

namespace Codec

variable {c : Codec} {s : Shape}

theorem wellFormed_of_encodeTriple {entry : String × Scalar} {value : Json}
    (h : c.encodeTriple entry = .ok value) : value.WellFormed := by
  obtain ⟨tag, written, -, hwritten, rfl⟩ := encodeTriple_eq_ok_iff.mp h
  have hplain := Json.wellFormed_of_plain (plain_of_encodeScalar hwritten)
  have hkeys : (Entries.keys (tripleMembers entry.1 written tag)).Nodup := by
    have hnames : ["key", "value", "type"].Nodup := by decide
    exact hnames
  exact ⟨hkeys, trivial, hplain, trivial, trivial⟩

theorem wellFormed_of_encodeMetadata {m : Metadata} {value : Json}
    (h : c.encodeMetadata m = .ok value) : value.WellFormed := by
  obtain ⟨triples, htriples, rfl⟩ := encodeMetadata_eq_ok_iff.mp h
  exact Json.wellFormed_of_mapM htriples fun _ _ _ => wellFormed_of_encodeTriple

theorem wellFormed_of_storedMetadata {m : Metadata} {kept : Json}
    (h : c.storedMetadata m = .ok kept) : kept.WellFormed := by
  unfold storedMetadata at h
  split at h
  · exact wellFormed_of_encodeMetadata h
  · cases h
    trivial

theorem wellFormed_of_encodeValue {type : FieldType} {field : type.Value} {value : Json}
    (h : c.encodeValue type field = .ok value) : value.WellFormed := by
  cases type with
  | metadata => exact wellFormed_of_encodeMetadata h
  | integer =>
      cases h
      trivial
  | text =>
      cases h
      trivial

/-! ## Written records -/

theorem wellFormed_of_encodeNamed {r : Record s} {fields : List Field}
    {members : List (String × Json)} (hdistinct : (fields.map Field.key).Nodup)
    (h : c.encodeNamed r fields = .ok members) : (Json.object members).WellFormed := by
  induction fields generalizing members with
  | nil =>
      cases h
      exact ⟨List.nodup_nil, trivial⟩
  | cons f rest ih =>
      rw [List.map_cons, List.nodup_cons] at hdistinct
      rcases encodeNamed_cons_eq_ok_iff.mp h with
        ⟨-, hrest⟩ | ⟨v, value, more, -, hvalue, hrest, rfl⟩
      · exact ih hdistinct.2 hrest
      · have hmore := ih hdistinct.2 hrest
        have hnew : f.key ∉ Entries.keys more := by
          intro hmem
          obtain ⟨g, hg, hkey⟩ := mem_keys_of_encodeNamed hrest hmem
          exact hdistinct.1 (hkey ▸ List.mem_map_of_mem hg)
        exact ⟨List.nodup_cons.mpr ⟨hnew, hmore.1⟩, wellFormed_of_encodeValue hvalue, hmore.2⟩

theorem nodup_map_key (s : Shape) : (s.fields.map Field.key).Nodup := by
  cases s <;> decide

theorem notMem_extras_of_mem_ownKeys {extras : Extras s} {key : String} (h : key ∈ s.ownKeys) :
    key ∉ Entries.keys extras.entries :=
  fun hmem => extras.allowed key hmem (List.mem_cons_of_mem _ h)

theorem wellFormed_append_extras {r : Record s} (hr : r.Obeys .wellFormed)
    {own : List (String × Json)} (hown : (Json.object own).WellFormed)
    (hkeys : ∀ key ∈ Entries.keys own, key ∈ s.ownKeys) :
    (Json.object (own ++ r.extras.entries)).WellFormed := by
  have hextras : (Json.object r.extras.entries).WellFormed :=
    Json.wellFormed_object_iff.mpr ⟨r.extras.distinct, hr.extras⟩
  exact Json.wellFormed_append hown hextras fun key hkey =>
    notMem_extras_of_mem_ownKeys (hkeys key hkey)

theorem wellFormed_of_encodeRecord {r : Record s} (hr : r.Obeys .wellFormed)
    {members : List (String × Json)} (h : c.encodeRecord r = .ok members) :
    (Json.object members).WellFormed := by
  obtain ⟨named, hnamed, rfl⟩ := encodeRecord_eq_ok_iff.mp h
  exact wellFormed_append_extras hr (wellFormed_of_encodeNamed (nodup_map_key s) hnamed)
    (mem_ownKeys_of_encodeNamed hnamed)

theorem wellFormed_of_encodeLocations {locations : List Location}
    (hlocations : ∀ location ∈ locations, location.Obeys .wellFormed)
    {members : List (String × Json)} (h : c.encodeLocations locations = .ok members) :
    (Json.object members).WellFormed := by
  rcases encodeLocations_eq_ok_iff.mp h with ⟨-, rfl⟩ | ⟨-, items, hitems, rfl⟩
  · exact ⟨List.nodup_nil, trivial⟩
  · have hlist : (Json.array items).WellFormed := by
      refine Json.wellFormed_of_mapM hitems fun location hmem value hvalue => ?_
      obtain ⟨written, hwritten, rfl⟩ := map_eq_ok_iff.mp hvalue
      exact wellFormed_of_encodeRecord (hlocations location hmem) hwritten
    exact ⟨List.nodup_singleton _, hlist, trivial⟩

theorem key_of_mem_encodeLocations {locations : List Location} {members : List (String × Json)}
    (h : c.encodeLocations locations = .ok members) {key : String}
    (hkey : key ∈ Entries.keys members) : key = Shape.locationsKey := by
  rcases encodeLocations_eq_ok_iff.mp h with ⟨-, rfl⟩ | ⟨-, items, -, rfl⟩
  · cases hkey
  · exact List.mem_singleton.mp hkey

theorem wellFormed_of_encodeDataset {d : Dataset} (hd : d.Obeys .wellFormed)
    {members : List (String × Json)} (h : c.encodeDataset d = .ok members) :
    (Json.object members).WellFormed := by
  obtain ⟨named, hnamed, locations, hlocations, rfl⟩ := encodeDataset_eq_ok_iff.mp h
  have hlocationsKey : Shape.locationsKey ∈ Shape.dataset.ownKeys ∧
      ∀ f ∈ Shape.dataset.fields, f.key ≠ Shape.locationsKey := by decide
  have hdisjoint : ∀ key ∈ Entries.keys named, key ∉ Entries.keys locations := by
    intro key hkey hlocation
    obtain ⟨f, hf, rfl⟩ := mem_keys_of_encodeNamed hnamed hkey
    exact hlocationsKey.2 f hf (key_of_mem_encodeLocations hlocations hlocation)
  have hown : (Json.object (named ++ locations)).WellFormed :=
    Json.wellFormed_append (wellFormed_of_encodeNamed (nodup_map_key _) hnamed)
      (wellFormed_of_encodeLocations hd.locations hlocations) hdisjoint
  have hkeys : ∀ key ∈ Entries.keys (named ++ locations), key ∈ Shape.dataset.ownKeys := by
    rw [Entries.keys_append]
    refine List.forall_mem_append.mpr ⟨mem_ownKeys_of_encodeNamed hnamed, fun key hkey => ?_⟩
    rw [key_of_mem_encodeLocations hlocations hkey]
    exact hlocationsKey.1
  exact wellFormed_append_extras hd.record hown hkeys

theorem wellFormed_of_encodeEntity {e : Entity} (he : e.Obeys .wellFormed) {value : Json}
    (h : c.encodeEntity e = .ok value) : value.WellFormed := by
  obtain ⟨members, hmembers, rfl⟩ := map_eq_ok_iff.mp h
  have hbody : (Json.object members).WellFormed := by
    cases e with
    | dataset d => exact wellFormed_of_encodeDataset he hmembers
    | folder r => exact wellFormed_of_encodeRecord he hmembers
    | group r => exact wellFormed_of_encodeRecord he hmembers
    | location r => exact wellFormed_of_encodeRecord he hmembers
  have htag : Shape.tagKey ∉ Entries.keys members := by
    obtain ⟨own, rfl, hown⟩ := layout_of_encodeBody hmembers
    rw [Entries.keys_append, List.mem_append]
    rintro (hmem | hmem)
    · exact Shape.tagKey_not_mem_ownKeys _ (hown _ hmem)
    · exact e.extraFields_allowed _ hmem (Shape.tagKey_mem_reserved _)
  exact ⟨List.nodup_cons.mpr ⟨htag, hbody.1⟩, trivial, hbody.2⟩

theorem wellFormed_of_encode {d : Decoded} (hd : d.WellFormed) {value : Json}
    (h : c.encode d = .ok value) : value.WellFormed := by
  induction hd generalizing value with
  | entity he =>
      rw [encode] at h
      exact wellFormed_of_encodeEntity he h
  | pair key s =>
      rw [encode] at h
      obtain ⟨scalar, hscalar, rfl⟩ := map_eq_ok_iff.mp h
      exact ⟨trivial, Json.wellFormed_of_plain (plain_of_encodeScalar hscalar), trivial⟩
  | list _ ih =>
      rw [encode, encodeAll_eq_mapM] at h
      obtain ⟨values, hvalues, rfl⟩ := map_eq_ok_iff.mp h
      exact Json.wellFormed_of_mapM hvalues ih
  | json hvalue =>
      cases h
      exact hvalue

end Codec

namespace Packable

variable {c : Codec} {x : Packable}

theorem wellFormed_of_encode (hx : x.WellFormed) {value : Json} (h : x.encode c = .ok value) :
    value.WellFormed := by
  induction hx generalizing value with
  | record hr =>
      obtain ⟨members, hmembers, rfl⟩ := map_eq_ok_iff.mp h
      exact Codec.wellFormed_of_encodeRecord hr hmembers
  | dataset hd =>
      obtain ⟨members, hmembers, rfl⟩ := map_eq_ok_iff.mp h
      exact Codec.wellFormed_of_encodeDataset hd hmembers
  | entity he => exact Codec.wellFormed_of_encodeEntity he h
  | metadata m => exact Codec.wellFormed_of_encodeMetadata h
  | scalar s => exact Json.wellFormed_of_plain (Codec.plain_of_encodeScalar h)
  | decoded hd => exact Codec.wellFormed_of_encode hd h
  | list _ ih =>
      rw [encode, encodeAll_eq_mapM] at h
      obtain ⟨values, hvalues, rfl⟩ := map_eq_ok_iff.mp h
      exact Json.wellFormed_of_mapM hvalues ih

/-- If the document of a value has no doubles and nests at most 127 deep, unpacking the packed value
with any codec is the same as reading the document: the same result or the same error. -/
theorem unpack_pack (hx : x.WellFormed) {document : Json} (h : x.encode c = .ok document)
    (hwhole : document.FloatFree) (hdepth : document.depth ≤ 127) :
    ∃ text, x.pack c = .ok text ∧ ∀ reader : Codec, reader.unpack text = reader.decode document := by
  have hparse : Json.parse document.render = .ok document :=
    Json.parse_render hwhole (wellFormed_of_encode hx h) (Nat.lt_succ_of_le hdepth)
  refine ⟨document.render, by rw [pack, h, map_ok], fun reader => ?_⟩
  rw [Codec.unpack, hparse]

/-- A list of a dataset without its tag, a scalar and a metadata entry, with characters that are
escaped in the text.  It can be read where a default kind is known, and otherwise not. -/
theorem unpack_pack_mixed :
    let site : Location := .ofEdits [.set .site (by decide) "SLAC"]
    let muons : Dataset := .ofEdits [.set .name (by decide) "mu\"on\n",
      .set .versionId (by decide) (-9 : Int64),
      .extra "parent" (.object [("_type", .string "group"), ("name", .string "é")]),
      .addLocation rfl site]
    let x : Packable := .list
      [.dataset muons, .scalar (.text "\x01\\"), .decoded (.pair "run" (.integer 7))]
    ∃ document text, x.encode {} = .ok document ∧ x.pack {} = .ok text ∧
      Codec.unpack { defaultKind := some .dataset } text =
        Codec.decode { defaultKind := some .dataset } document ∧
      Codec.unpack {} text = .error Cause.noTypeInformation.error := by
  intro site muons x
  have hsite : site.Obeys .wellFormed := by
    refine Record.obeys_ofEdits fun e he => ?_
    rw [List.mem_singleton.mp he]
    trivial
  have hmuons : muons.Obeys .wellFormed := by
    apply Dataset.obeys_ofEdits
    simp only [List.forall_mem_cons]
    exact ⟨trivial, trivial, ⟨by decide, trivial, trivial, trivial⟩, hsite, List.forall_mem_nil _⟩
  have hx : x.WellFormed := by
    apply WellFormed.list
    simp only [List.forall_mem_cons]
    exact ⟨.dataset hmuons, .scalar _, .decoded (.pair _ _), List.forall_mem_nil _⟩
  have hencode : x.encode {} = .ok _ := rfl
  obtain ⟨text, hpack, hunpack⟩ := unpack_pack hx hencode (by trivial) (by decide)
  exact ⟨_, text, hencode, hpack, hunpack _, hunpack _⟩

end Packable

end DataCatalog
