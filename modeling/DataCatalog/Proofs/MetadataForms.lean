import DataCatalog.Proofs.Encodable
import DataCatalog.Proofs.Members
import DataCatalog.Proofs.Sameness

/-!
# The three forms of metadata

Metadata is written as an array of triples.  It is read back under exactly those tables that lead
from the tag of each type back to this type: reading finds the type of a scalar by its tag alone, so
under any other table already a single scalar comes back as one of another type, or not at all.  An
array of pairs and a plain object carry no tags; they are read back under every table, because the
form of a written scalar shows its type.  Each statement is about metadata as a member of an
object, among any other members that are read as an entry.
-/

namespace DataCatalog

/-! ## Entries with other metadata -/

theorem EntityKind.metadata_mem_fields (kind : EntityKind) : Field.metadata ∈ kind.shape.fields := by
  cases kind <;> decide

/-- The entry with this metadata in place of its own; with empty metadata it has none. -/
def Entity.withMetadata (e : Entity) (m : Metadata) : Entity :=
  match e with
  | .dataset d => .dataset (d.set .metadata m (EntityKind.metadata_mem_fields .dataset))
  | .folder r => .folder (r.set .metadata m (EntityKind.metadata_mem_fields .folder))
  | .group r => .group (r.set .metadata m (EntityKind.metadata_mem_fields .group))
  | .location r => .location (r.set .metadata m (EntityKind.metadata_mem_fields .location))

theorem Entity.build_setting (kind : EntityKind) {left right : List (Edit kind.shape)}
    (hleft : ∀ e ∈ left, e.Spares .metadata) (hright : ∀ e ∈ right, e.Spares .metadata)
    (m : Metadata) :
    Entity.build kind (left ++ (Edit.setting .metadata kind.metadata_mem_fields m ++ right)) =
      (Entity.build kind (left ++ right)).withMetadata m := by
  cases kind with
  | dataset => exact congrArg Entity.dataset (Dataset.ofEdits_setting hleft hright _ m)
  | folder => exact congrArg Entity.folder (Record.ofEdits_setting hleft hright _ m)
  | group => exact congrArg Entity.group (Record.ofEdits_setting hleft hright _ m)
  | location => exact congrArg Entity.location (Record.ofEdits_setting hleft hright _ m)

/-! ## Metadata of one entry -/

def Metadata.single (s : Scalar) : Metadata :=
  .ofList [("", s)]

theorem Metadata.exists_entry_of_same {m n : Metadata} {entry : String × Scalar}
    (hm : m.entries = [entry]) (h : Metadata.same n m = true) :
    ∃ other, n.entries = [other] ∧ other.2.same entry.2 = true := by
  unfold same OrderedMap.size at h
  rw [hm, Bool.and_eq_true, beq_iff_eq, List.length_singleton, List.length_eq_one_iff] at h
  obtain ⟨⟨other, hother⟩, hsame⟩ := h
  simp only [hother, List.zip_cons_cons, List.zip_nil_right, List.all_cons, List.all_nil,
    Bool.and_true, Bool.and_eq_true] at hsame
  exact ⟨other, hother, hsame.2⟩

namespace Codec

variable {c : Codec} {s : Shape}

/-- As the metadata of an object, whatever else the object holds, the value is read as `m`: an
object that is read as an entry without it is read as the same entry with metadata `m` with it. -/
def ReadsMetadata (c : Codec) (value : Json) (m : Metadata) : Prop :=
  ∀ (before after : List (String × Json)) (e : Entity),
    Field.metadata.key ∉ Entries.keys (before ++ after) →
    c.decode (.object (before ++ after)) = .ok (.entity e) →
    c.decode (.object (before ++ (Field.metadata.key, value) :: after)) =
      .ok (.entity (e.withMetadata m))

/-! ## A member that is no metadata -/

/-- What an object is depends on four of its members. -/
theorem role_congr {members others : List (String × Json)}
    (h : ∀ key ∈ [Shape.tagKey, "key", "value", "type"],
      Entries.get? key members = Entries.get? key others) : c.role members = c.role others := by
  have htag : taggedKind members = taggedKind others := by
    unfold taggedKind
    rw [h Shape.tagKey (by decide)]
  have htriple : isTriple members = isTriple others := by
    unfold isTriple
    simp only [List.all_cons, List.all_nil, h "key" (by decide), h "value" (by decide),
      h "type" (by decide)]
  have hknown : c.knowsType members = c.knowsType others := by
    unfold knowsType
    rw [h "type" (by decide)]
  unfold role
  rw [htag, htriple, hknown]

theorem role_append_metadata (before after : List (String × Json)) (value : Json) :
    c.role (before ++ (Field.metadata.key, value) :: after) = c.role (before ++ after) := by
  apply role_congr
  intro key hkey
  have hne : Field.metadata.key ≠ key := by
    rintro rfl
    revert hkey
    decide
  rw [Entries.get?_append, Entries.get?_append, Entries.get?, if_neg hne]

theorem exists_edits_of_decode_entity {members : List (String × Json)} {e : Entity}
    (h : c.decode (.object members) = .ok (.entity e)) :
    ∃ kind edits, c.role members = .ok (.entity kind) ∧
      c.readMembers kind.shape members = .ok edits ∧ Entity.build kind edits = e := by
  rcases decode_object_cases h with ⟨entry, _, _, hpair⟩ | ⟨kind, edits, hrole, hedits, he⟩
  · cases hpair
  · exact ⟨kind, edits, hrole, hedits, (Decoded.entity.inj he).symm⟩

theorem spares_of_readMembers {f : Field} {members : List (String × Json)} {edits : List (Edit s)}
    (hkey : f.key ∉ Entries.keys members) (h : c.readMembers s members = .ok edits) :
    ∀ e ∈ edits, e.Spares f := by
  intro e he
  have hne : e.key ≠ f.key := key_ne_of_readMembers h hkey e he
  cases e with
  | set g has v =>
      rintro rfl
      exact hne rfl
  | extra key value => trivial
  | locations dataset items => trivial
  | addLocation dataset item => trivial

/-! ## The member of metadata -/

theorem readMember_metadata (has : Field.metadata ∈ s.fields) (value : Json) :
    c.readMember s Field.metadata.key value =
      (c.readMetadata Field.metadata.key value).map (Edit.setting .metadata has) := by
  have hfield : c.readField Field.metadata.key Field.metadata.type value =
      (c.readMetadata Field.metadata.key value).map
        fun m => if Metadata.truthy m then some m else none := rfl
  rw [readMember_field c has, hfield]
  cases c.readMetadata Field.metadata.key value with
  | error e => rfl
  | ok m => exact congrArg Except.ok (Edit.map_set_toList (f := .metadata) has m)

theorem readsMetadata_of_readMetadata {value : Json} {m : Metadata}
    (h : c.readMetadata Field.metadata.key value = .ok m) : c.ReadsMetadata value m := by
  intro before after e hkey hentity
  rw [Entries.keys_append, List.mem_append, not_or] at hkey
  obtain ⟨kind, edits, hrole, hedits, rfl⟩ := exists_edits_of_decode_entity hentity
  rw [readMembers_append, bind_eq_ok_iff] at hedits
  obtain ⟨left, hleft, hafter⟩ := hedits
  obtain ⟨right, hright, rfl⟩ := map_eq_ok_iff.mp hafter
  have hread : c.readMembers kind.shape (before ++ (Field.metadata.key, value) :: after) =
      .ok (left ++ (Edit.setting .metadata kind.metadata_mem_fields m ++ right)) := by
    rw [readMembers_append, hleft, ok_bind, readMembers_cons,
      readMember_metadata kind.metadata_mem_fields, h, hright]
    rfl
  rw [← role_append_metadata before after value] at hrole
  rw [decode_object_of_entity hrole, hread, map_ok,
    Entity.build_setting kind (spares_of_readMembers hkey.1 hleft)
      (spares_of_readMembers hkey.2 hright)]

/-- Metadata is found out again from the entry that has nothing else. -/
theorem eq_of_withMetadata_empty {m n : Metadata} (htruthy : Metadata.truthy m = true)
    (h : (Entity.folder .empty).withMetadata n = (Entity.folder .empty).withMetadata m) : n = m := by
  have hrecord : (Record.empty : Container).set .metadata n = Record.empty.set .metadata m :=
    Entity.folder.inj h
  have hkeep : Field.metadata.keep n = Field.metadata.keep m :=
    calc
      Field.metadata.keep n = ((Record.empty : Container).set .metadata n).named .metadata :=
        (Record.named_set_self _ _ _ _).symm
      _ = ((Record.empty : Container).set .metadata m).named .metadata :=
        congrArg (fun r : Container => r.named .metadata) hrecord
      _ = Field.metadata.keep m := Record.named_set_self _ _ _ _
  rw [Field.keep_of_truthy (f := .metadata) htruthy] at hkeep
  exact (Field.eq_of_keep_eq_some hkeep).symm

/-- A folder with no other members shows what a value is read as. -/
theorem readMetadata_of_readsMetadata {value : Json} {m : Metadata} (h : c.ReadsMetadata value m)
    (htruthy : Metadata.truthy m = true) :
    c.readMetadata Field.metadata.key value = .ok m := by
  have hempty : c.decode (.object ([(Shape.tagKey, .string "folder")] ++ [])) =
      .ok (.entity (.folder .empty)) := rfl
  have hread := h _ _ _ (by decide) hempty
  cases hmetadata : c.readMetadata Field.metadata.key value with
  | error e =>
      obtain ⟨kind, edits, _, hedits, _⟩ := exists_edits_of_decode_entity hread
      rw [readMembers_append, bind_eq_ok_iff] at hedits
      obtain ⟨_, _, hmember⟩ := hedits
      rw [readMembers_cons, readMember_metadata kind.metadata_mem_fields, hmetadata] at hmember
      cases hmember
  | ok n =>
      have hother := readsMetadata_of_readMetadata hmetadata _ _ _ (by decide) hempty
      rw [hread] at hother
      have hentry := Decoded.entity.inj (Except.ok.inj hother)
      rw [eq_of_withMetadata_empty htruthy hentry.symm]

/-! ## Triples -/

/-- Metadata that is written comes back in agreement with what it was. -/
def RoundTrips (c : Codec) (agrees : Metadata → Metadata → Prop) : Prop :=
  ∀ m written, c.encodeMetadata m = .ok written → ∃ n, c.ReadsMetadata written n ∧ agrees n m

theorem exists_encodeScalar (kind : ScalarKind) :
    ∃ s value, Scalar.kind s = kind ∧ encodeScalar s = .ok value := by
  cases kind with
  | integer => exact ⟨.integer 0, _, rfl, rfl⟩
  | decimal => exact ⟨.decimal (.finite (.zero false)), _, rfl, rfl⟩
  | text => exact ⟨.text "", _, rfl, rfl⟩

theorem kind_of_ofJson? {kind : ScalarKind} {value : Json} {s : Scalar}
    (h : Scalar.ofJson? kind value = some s) : s.kind = kind := by
  unfold Scalar.ofJson? at h
  split at h
  · obtain ⟨n, _, rfl⟩ := Option.map_eq_some_iff.mp h
    rfl
  · obtain ⟨n, _, rfl⟩ := Option.map_eq_some_iff.mp h
    rfl
  · cases h
    rfl
  · split at h
    · split at h
      · cases h
        rfl
      · cases h
    · cases h
  · cases h
    rfl
  · cases h
    rfl
  · cases h

theorem kind_eq_of_same {s t : Scalar} (h : s.same t = true) : s.kind = t.kind := by
  cases s <;> cases t <;> first | rfl | cases h

theorem kindFor?_of_readTriple {key tag : String} {value : Json} {entry : String × Scalar}
    (h : c.readTriple (tripleMembers key value tag) = .ok entry) :
    c.types.kindFor? tag = some entry.2.kind := by
  have hkey : Entries.get? "key" (tripleMembers key value tag) = some (.string key) := rfl
  have hvalue : Entries.get? "value" (tripleMembers key value tag) = some value := rfl
  have htag : typeTag (tripleMembers key value tag) = tag := rfl
  simp only [readTriple, hkey, htag, hvalue, Option.getD_some] at h
  cases hkind : c.types.kindFor? tag with
  | none =>
      rw [hkind] at h
      cases h
  | some kind =>
      simp only [hkind] at h
      cases hscalar : Scalar.ofJson? kind value with
      | none =>
          rw [hscalar] at h
          cases h
      | some s =>
          rw [hscalar] at h
          cases h
          rw [kind_of_ofJson? hscalar]

theorem readEntry_of_readMetadata {field : String} {item : Json} {m : Metadata}
    {entry : String × Scalar} (h : c.readMetadata field (.array [item]) = .ok m)
    (hm : m.entries = [entry]) : c.readEntry field item = .ok entry := by
  obtain ⟨entries, hentries, rfl⟩ := map_eq_ok_iff.mp h
  obtain ⟨read, rest, hread, hrest, rfl⟩ :=
    List.forall₂_cons_left_iff.mp (mapM_eq_ok_iff.mp hentries)
  cases hrest
  have hone : (OrderedMap.ofList [read]).entries = [read] := rfl
  rw [hone, List.singleton_inj] at hm
  rw [hread, hm]

/-- A single scalar of each type is enough to tell that the table is coherent. -/
theorem coherent_of_roundTrips (h : c.RoundTrips fun n m => Metadata.same n m = true) :
    c.types.Coherent := by
  intro kind tag htag
  obtain ⟨s, value, rfl, hvalue⟩ := exists_encodeScalar kind
  have hentries : (Metadata.single s).entries = [("", s)] := rfl
  have htriple : c.encodeTriple ("", s) = .ok (.object (tripleMembers "" value tag)) :=
    encodeTriple_eq_ok_iff.mpr ⟨tag, value, htag, hvalue, rfl⟩
  have hwritten : c.encodeMetadata (Metadata.single s) =
      .ok (.array [.object (tripleMembers "" value tag)]) := by
    rw [encodeMetadata, hentries, List.mapM_cons, htriple]
    rfl
  obtain ⟨n, hreads, hsame⟩ := h _ _ hwritten
  obtain ⟨entry, hn, hscalar⟩ := Metadata.exists_entry_of_same hentries hsame
  have htruthy : Metadata.truthy n = true := by
    simp [Metadata.truthy, OrderedMap.isEmpty, hn]
  have hread := readEntry_of_readMetadata (readMetadata_of_readsMetadata hreads htruthy) hn
  have hkind : c.types.kindFor? tag = some entry.2.kind := kindFor?_of_readTriple hread
  rw [hkind, kind_eq_of_same hscalar]

theorem roundTrips_of_coherent (hcoherent : c.types.Coherent) : c.RoundTrips Eq := by
  intro m written hwritten
  have hread := readMetadata_of_encodeMetadata hcoherent Field.metadata.key hwritten
  exact ⟨m, readsMetadata_of_readMetadata hread, rfl⟩

theorem RoundTrips.same (h : c.RoundTrips Eq) :
    c.RoundTrips fun n m => Metadata.same n m = true := by
  intro m written hwritten
  obtain ⟨n, hreads, rfl⟩ := h m written hwritten
  exact ⟨n, hreads, same_self_of_encodeMetadata hwritten⟩

/-! ## Pairs and plain objects -/

/-- Metadata as an array of pairs of key and value. -/
def pairForm (m : Metadata) : Except Error Json :=
  (m.entries.mapM fun entry =>
    (encodeScalar entry.2).map fun value => Json.array [.string entry.1, value]).map .array

/-- Metadata as an object of its values. -/
def plainForm (m : Metadata) : Except Error Json :=
  (m.entries.mapM fun entry => (encodeScalar entry.2).map (Prod.mk entry.1)).map .object

theorem infer?_of_encodeScalar {s : Scalar} {value : Json} (h : encodeScalar s = .ok value) :
    Scalar.infer? value = some s := by
  cases s with
  | integer n =>
      cases h
      simp only [Scalar.infer?, Json.ofInt64, Json.Number.toInt64?_ofInt64]
  | decimal x =>
      cases x with
      | finite x =>
          cases h
          rfl
      | nan => cases h
      | infinite negative => cases h
  | text s =>
      cases h
      rfl

theorem readPair_of_encodeScalar (field key : String) {s : Scalar} {value : Json}
    (h : encodeScalar s = .ok value) : readPair field key value = .ok (key, s) := by
  rw [readPair, infer?_of_encodeScalar h]

theorem readMetadata_of_pairForm (field : String) {m : Metadata} {value : Json}
    (h : pairForm m = .ok value) : c.readMetadata field value = .ok m := by
  obtain ⟨pairs, hpairs, rfl⟩ := map_eq_ok_iff.mp h
  have hentries : pairs.mapM (c.readEntry field) = .ok m.entries := by
    refine mapM_eq_ok_of_inverse (fun entry pair hpair => ?_) hpairs
    obtain ⟨value, hvalue, rfl⟩ := map_eq_ok_iff.mp hpair
    exact readPair_of_encodeScalar field entry.1 hvalue
  simp only [readMetadata, hentries, map_ok, OrderedMap.ofList_entries]

theorem readMetadata_of_plainForm (field : String) {m : Metadata} {value : Json}
    (h : plainForm m = .ok value) : c.readMetadata field value = .ok m := by
  obtain ⟨members, hmembers, rfl⟩ := map_eq_ok_iff.mp h
  have hentries : (members.mapM fun (key, value) => readPair field key value) = .ok m.entries := by
    refine mapM_eq_ok_of_inverse (fun entry member hmember => ?_) hmembers
    obtain ⟨value, hvalue, rfl⟩ := map_eq_ok_iff.mp hmember
    exact readPair_of_encodeScalar field entry.1 hvalue
  simp only [readMetadata, hentries, map_ok, OrderedMap.ofList_entries]

theorem pairForm_succeeds {m : Metadata} (h : m.IsFinite) : Succeeds (pairForm m) :=
  (Succeeds.mapM fun entry hentry => (encodeScalar_succeeds (h entry hentry)).map _).map _

theorem plainForm_succeeds {m : Metadata} (h : m.IsFinite) : Succeeds (plainForm m) :=
  (Succeeds.mapM fun entry hentry => (encodeScalar_succeeds (h entry hentry)).map _).map _

/-- Metadata written as triples comes back as it was under exactly the coherent tables, whether it
is to be equal or only the same; written as pairs or as a plain object it does so under every table,
if its doubles are finite. -/
theorem metadata_forms (c : Codec) :
    (c.RoundTrips Eq ↔ c.types.Coherent) ∧
      (c.RoundTrips (fun n m => Metadata.same n m = true) ↔ c.types.Coherent) ∧
      ∀ m : Metadata, m.IsFinite →
        (∃ pairs, pairForm m = .ok pairs ∧ c.ReadsMetadata pairs m) ∧
          ∃ members, plainForm m = .ok members ∧ c.ReadsMetadata members m := by
  have hround := roundTrips_of_coherent (c := c)
  refine ⟨⟨fun h => coherent_of_roundTrips h.same, hround⟩,
    ⟨coherent_of_roundTrips, fun h => (hround h).same⟩, fun m hm => ⟨?_, ?_⟩⟩
  · obtain ⟨pairs, hpairs⟩ := pairForm_succeeds hm
    exact ⟨pairs, hpairs, readsMetadata_of_readMetadata (readMetadata_of_pairForm _ hpairs)⟩
  · obtain ⟨members, hmembers⟩ := plainForm_succeeds hm
    exact ⟨members, hmembers, readsMetadata_of_readMetadata (readMetadata_of_plainForm _ hmembers)⟩

/-- A whole double and a whole number of one value stay apart in both forms without tags.  The table
gives them one tag, so as triples they do not come back. -/
theorem metadata_forms_whole_double :
    let shared : Codec := ⟨⟨[(.integer, "number"), (.decimal, "number")]⟩, none⟩
    let m : Metadata := .ofList [("events", .integer 2), ("weight", .decimal (.ofInt 2))]
    ¬shared.RoundTrips Eq ∧ m.IsFinite ∧
      (∃ pairs, pairForm m = .ok pairs ∧ shared.ReadsMetadata pairs m) ∧
      ∃ members, plainForm m = .ok members ∧ shared.ReadsMetadata members m := by
  intro shared m
  have hforms := metadata_forms shared
  have hfinite : m.IsFinite := by
    have hentries : m.entries = [("events", .integer 2), ("weight", .decimal (.ofInt 2))] := rfl
    intro entry hentry
    rw [hentries] at hentry
    rcases List.mem_pair.mp hentry with rfl | rfl
    · trivial
    · exact Binary64.isFinite_ofInt (by decide)
  refine ⟨fun hround => ?_, hfinite, hforms.2.2 m hfinite⟩
  have hcoherent : shared.types.Coherent := hforms.1.mp hround
  have hdecimal := hcoherent .decimal "number" rfl
  revert hdecimal
  decide

end Codec

end DataCatalog
