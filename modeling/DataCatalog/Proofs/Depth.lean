import DataCatalog.Proofs.NestingLimit
import DataCatalog.Proofs.Representation

/-!
# How deep a written document nests

What is written nests at most one level deeper than what was read.  The level comes from metadata:
a plain object of keys and values is written as an array of objects.  Its values are scalars, so
nothing below it grows again, and everything else is written with the brackets with which it was
read, or with fewer.
-/

namespace DataCatalog

open Json

namespace Codec

variable {c : Codec} {s : Shape}

/-! ## Written values -/

theorem depth_of_encodeTriple {entry : String × Scalar} {value : Json}
    (h : c.encodeTriple entry = .ok value) : value.depth = 1 := by
  obtain ⟨tag, written, -, hwritten, rfl⟩ := encodeTriple_eq_ok_iff.mp h
  have hplain : written.depth = 0 := depth_of_plain (plain_of_encodeScalar hwritten)
  simp [tripleMembers, Json.depth, membersDepth, hplain]

theorem depth_of_encodeMetadata {m : Metadata} {value : Json}
    (h : c.encodeMetadata m = .ok value) : value.depth ≤ 2 := by
  obtain ⟨triples, htriples, rfl⟩ := encodeMetadata_eq_ok_iff.mp h
  have hitems : itemsDepth triples ≤ 1 := by
    rw [itemsDepth_le_iff]
    intro triple htriple
    obtain ⟨entry, -, hentry⟩ := exists_mem_of_mapM_eq_ok htriples htriple
    exact le_of_eq (depth_of_encodeTriple hentry)
  exact Nat.succ_le_succ hitems

/-- Named fields are written with at most `n` levels, and extra fields have at most `n`. -/
def nests (c : Codec) (n : Nat) : FieldRule where
  named f value := ∀ written, c.encodeValue f.type value = .ok written → written.depth ≤ n
  extra _ value := value.depth ≤ n

theorem depth_of_encodeNamed {r : Record s} {n : Nat} (hr : r.Obeys (c.nests n))
    {fields : List Field} {members : List (String × Json)}
    (h : c.encodeNamed r fields = .ok members) : ∀ member ∈ members, member.2.depth ≤ n := by
  intro member hmember
  obtain ⟨f, -, v, hget, -, hvalue⟩ := exists_field_of_mem h hmember
  exact hr.named f v hget member.2 hvalue

theorem depth_of_encodeRecord {r : Record s} {n : Nat} (hr : r.Obeys (c.nests n))
    {members : List (String × Json)} (h : c.encodeRecord r = .ok members) :
    ∀ member ∈ members, member.2.depth ≤ n := by
  obtain ⟨named, hnamed, rfl⟩ := encodeRecord_eq_ok_iff.mp h
  exact List.forall_mem_append.mpr ⟨depth_of_encodeNamed hr hnamed, hr.extras⟩

/-- The location nests two levels less, for its object and for the array around it. -/
def Sits (c : Codec) (n : Nat) (location : Location) : Prop :=
  ∃ m, m + 2 ≤ n ∧ location.Obeys (c.nests m)

theorem Sits.obeys {n : Nat} {location : Location} (h : c.Sits n location) :
    location.Obeys (c.nests n) := by
  obtain ⟨m, hm, hobeys⟩ := h
  have hle : m ≤ n := Nat.le_of_add_right_le hm
  constructor
  · intro f value hget written hwritten
    exact le_trans (hobeys.named f value hget written hwritten) hle
  · exact fun entry hentry => le_trans (hobeys.extras entry hentry) hle

theorem depth_of_encodeLocations {locations : List Location} {n : Nat}
    (hlocations : ∀ location ∈ locations, c.Sits n location)
    {members : List (String × Json)} (h : c.encodeLocations locations = .ok members) :
    ∀ member ∈ members, member.2.depth ≤ n := by
  rcases encodeLocations_eq_ok_iff.mp h with ⟨-, rfl⟩ | ⟨hne, items, hitems, rfl⟩
  · exact List.forall_mem_nil _
  · intro member hmember
    obtain rfl := List.mem_singleton.mp hmember
    obtain ⟨first, hfirst⟩ := List.exists_mem_of_ne_nil locations hne
    obtain ⟨m, hm, -⟩ := hlocations first hfirst
    obtain ⟨k, rfl⟩ : ∃ k, n = k + 1 := Nat.exists_eq_add_one.mpr (by omega)
    have hobjects : itemsDepth items ≤ k := by
      rw [itemsDepth_le_iff]
      intro item hitem
      obtain ⟨location, hlocation, hwritten⟩ := exists_mem_of_mapM_eq_ok hitems hitem
      obtain ⟨fields, hfields, rfl⟩ := map_eq_ok_iff.mp hwritten
      obtain ⟨m, hm, hobeys⟩ := hlocations location hlocation
      have hdepth : membersDepth fields ≤ m :=
        membersDepth_le_iff.mpr (depth_of_encodeRecord hobeys hfields)
      simp only [Json.depth]
      omega
    exact Nat.succ_le_succ hobjects

structure Nests (c : Codec) (n : Nat) (e : Entity) : Prop where
  obeys : e.Obeys (c.nests n)
  locations : ∀ location ∈ e.locations, c.Sits n location

theorem depth_of_encodeEntity {e : Entity} {n : Nat} (he : c.Nests n e) {value : Json}
    (h : c.encodeEntity e = .ok value) : value.depth ≤ n + 1 := by
  obtain ⟨members, hmembers, rfl⟩ := map_eq_ok_iff.mp h
  have hbody : ∀ member ∈ members, member.2.depth ≤ n := by
    cases e with
    | dataset d =>
        obtain ⟨named, hnamed, locations, hlocations, rfl⟩ := encodeDataset_eq_ok_iff.mp hmembers
        have hrecord := he.obeys.record
        refine List.forall_mem_append.mpr ⟨List.forall_mem_append.mpr ⟨?_, ?_⟩, hrecord.extras⟩
        · exact depth_of_encodeNamed hrecord hnamed
        · exact depth_of_encodeLocations he.locations hlocations
    | folder r => exact depth_of_encodeRecord he.obeys hmembers
    | group r => exact depth_of_encodeRecord he.obeys hmembers
    | location r => exact depth_of_encodeRecord he.obeys hmembers
  have hdepth : membersDepth ((Shape.tagKey, .string e.kind.tag) :: members) ≤ n :=
    membersDepth_le_iff.mpr (List.forall_mem_cons.mpr ⟨Nat.zero_le n, hbody⟩)
  exact Nat.succ_le_succ hdepth

/-! ## Read values -/

/-- The value is written with at most `n` levels, as a document and as an extra field. -/
structure Bounded (c : Codec) (n : Nat) (d : Decoded) : Prop where
  document : ∀ written, c.encode d = .ok written → written.depth ≤ n
  extra : ∀ kept, c.canonical d = .ok kept → kept.depth ≤ n

theorem Bounded.mono {n m : Nat} {d : Decoded} (h : c.Bounded n d) (hle : n ≤ m) :
    c.Bounded m d where
  document written hwritten := le_trans (h.document written hwritten) hle
  extra kept hkept := le_trans (h.extra kept hkept) hle

theorem depth_of_mapM {α : Type} {f : α → Except Error Json} {xs : List α} {values : List Json}
    {n : Nat} (h : xs.mapM f = .ok values)
    (hf : ∀ x ∈ xs, ∀ value, f x = .ok value → value.depth ≤ n) :
    (Json.array values).depth ≤ n + 1 := by
  have hitems : itemsDepth values ≤ n := by
    rw [itemsDepth_le_iff]
    intro value hvalue
    obtain ⟨x, hx, hwritten⟩ := exists_mem_of_mapM_eq_ok h hvalue
    exact hf x hx value hwritten
  exact Nat.succ_le_succ hitems

theorem bounded_list {items : List Decoded} {n : Nat} (h : ∀ item ∈ items, c.Bounded n item) :
    c.Bounded (n + 1) (.list items) where
  document written hwritten := by
    rw [encode, encodeAll_eq_mapM] at hwritten
    obtain ⟨values, hvalues, rfl⟩ := map_eq_ok_iff.mp hwritten
    exact depth_of_mapM hvalues fun item hitem => (h item hitem).document
  extra kept hkept := by
    rw [canonical, canonicalAll_eq_mapM] at hkept
    obtain ⟨values, hvalues, rfl⟩ := map_eq_ok_iff.mp hkept
    exact depth_of_mapM hvalues fun item hitem => (h item hitem).extra

theorem bounded_entity {e : Entity} {n : Nat} (h : c.Nests n e) : c.Bounded (n + 1) (.entity e) where
  document _ := depth_of_encodeEntity h
  extra _ := depth_of_encodeEntity h

theorem bounded_pair (key : String) (s : Scalar) : c.Bounded 1 (.pair key s) where
  document written hwritten := by
    obtain ⟨value, hvalue, rfl⟩ := map_eq_ok_iff.mp hwritten
    have hplain : value.depth = 0 := depth_of_plain (plain_of_encodeScalar hvalue)
    simp [Json.depth, itemsDepth, hplain]
  extra kept hkept := le_of_eq (depth_of_encodeTriple hkept)

theorem bounded_plain {value : Json} (h : value.Plain) (n : Nat) : c.Bounded n (.json value) where
  document written hwritten := by
    cases hwritten
    exact le_of_eq_of_le (depth_of_plain h) (Nat.zero_le n)
  extra kept hkept := by
    cases hkept
    exact le_of_eq_of_le (depth_of_plain h) (Nat.zero_le n)

/-- Whoever reads a value with at most `n` levels writes it with at most one more. -/
def Deepens (c : Codec) (n : Nat) : Prop :=
  ∀ value d, value.depth ≤ n → c.decode value = .ok d → c.Bounded (n + 1) d

/-- Only arrays and objects hold metadata. -/
theorem depth_of_readMetadata {field : String} {value : Json} {m : Metadata}
    (h : c.readMetadata field value = .ok m) (htruthy : Metadata.truthy m = true) :
    1 ≤ value.depth := by
  cases value with
  | array items => exact Nat.le_add_left 1 _
  | object members => exact Nat.le_add_left 1 _
  | null =>
      cases h
      cases htruthy
  | bool value => cases h
  | number value => cases h
  | string value => cases h

theorem depth_of_storedMetadata {field : String} {value : Json} {m : Metadata}
    (h : c.readMetadata field value = .ok m) {kept : Json} (hkept : c.storedMetadata m = .ok kept) :
    kept.depth ≤ value.depth + 1 := by
  unfold storedMetadata at hkept
  split at hkept
  · next htruthy =>
      have hvalue : 1 ≤ value.depth := depth_of_readMetadata h htruthy
      have hdepth : kept.depth ≤ 2 := depth_of_encodeMetadata hkept
      omega
  · cases hkept
    exact Nat.zero_le _

theorem depth_of_readField {field : String} {type : FieldType} {value : Json} {v : type.Value}
    (h : c.readField field type value = .ok (some v)) {written : Json}
    (hwritten : c.encodeValue type v = .ok written) : written.depth ≤ value.depth + 1 := by
  cases type with
  | integer =>
      cases hwritten
      exact Nat.zero_le _
  | text =>
      cases hwritten
      exact Nat.zero_le _
  | metadata =>
      obtain ⟨m, hm, hkept⟩ := map_eq_ok_iff.mp h
      split at hkept
      · next htruthy =>
          cases hkept
          have hvalue : 1 ≤ value.depth := depth_of_readMetadata hm htruthy
          have hdepth : written.depth ≤ 2 := depth_of_encodeMetadata hwritten
          omega
      · cases hkept

theorem depth_of_canonicalExtra {key : String} {value kept : Json} {n : Nat}
    (hn : c.Deepens n) (hdepth : value.depth ≤ n) (h : c.canonicalExtra key value = .ok kept) :
    kept.depth ≤ n + 1 := by
  unfold canonicalExtra at h
  split at h
  · obtain ⟨m, hm, hkept⟩ := bind_eq_ok_iff.mp h
    exact le_trans (depth_of_storedMetadata hm hkept) (Nat.succ_le_succ hdepth)
  · cases hread : c.decode value with
    | error e =>
        rw [hread] at h
        cases h
    | ok d =>
        rw [hread] at h
        exact (hn value d hdepth hread).extra kept h

theorem obeys_of_readMembers {members : List (String × Json)} {edits : List (Edit s)} {n : Nat}
    (hn : c.Deepens n) (hdepth : membersDepth members ≤ n)
    (h : c.readMembers s members = .ok edits) :
    (Record.ofEdits edits).Obeys (c.nests (n + 1)) := by
  apply Record.obeys_ofEdits_of_suits
  intro e he
  obtain ⟨member, hmember, own, hown, heOwn⟩ := exists_member_of_mem h he
  have hvalue : member.2.depth ≤ n := membersDepth_le_iff.mp hdepth member hmember
  rcases readMember_cases hown with
    ⟨f, has, v?, -, hread, rfl⟩ | ⟨dataset, items, -, -, rfl⟩ | ⟨-, -, kept, hkept, rfl⟩
  · obtain ⟨v, hv, rfl⟩ := List.mem_map.mp heOwn
    rw [Option.mem_toList.mp hv] at hread
    intro written hwritten
    exact le_trans (depth_of_readField hread hwritten) (Nat.succ_le_succ hvalue)
  · obtain rfl := List.mem_singleton.mp heOwn
    trivial
  · obtain rfl := List.mem_singleton.mp heOwn
    exact depth_of_canonicalExtra hn hvalue hkept

theorem sits_of_mem_placed {members : List (String × Json)} {edits : List (Edit .dataset)} {n : Nat}
    (hn : ∀ m ≤ n, c.Deepens m) (hdepth : membersDepth members ≤ n)
    (h : c.readMembers .dataset members = .ok edits) :
    ∀ location ∈ Edit.placed edits, c.Sits (n + 1) location := by
  intro location hmem
  obtain ⟨key, values, own, ownEdits, hvalues, hvalue, hown, rfl⟩ := exists_location_members h hmem
  have hlist : itemsDepth values + 1 ≤ n := membersDepth_le_iff.mp hdepth _ hvalues
  have hitem : membersDepth own + 1 ≤ itemsDepth values := itemsDepth_le_iff.mp le_rfl _ hvalue
  refine ⟨membersDepth own + 1, by omega, ?_⟩
  exact obeys_of_readMembers (hn _ (by omega)) le_rfl hown

theorem nests_build {members : List (String × Json)} {kind : EntityKind}
    {edits : List (Edit kind.shape)} {n : Nat} (hn : ∀ m ≤ n, c.Deepens m)
    (hdepth : membersDepth members ≤ n) (h : c.readMembers kind.shape members = .ok edits) :
    c.Nests (n + 1) (.build kind edits) := by
  have hrecord : (Record.ofEdits edits).Obeys (c.nests (n + 1)) :=
    obeys_of_readMembers (hn n le_rfl) hdepth h
  cases kind with
  | dataset =>
      have hplaced : (Dataset.ofEdits edits).locations = Edit.placed edits :=
        Dataset.locations_ofEdits edits
      have hlocations : ∀ location ∈ (Dataset.ofEdits edits).locations, c.Sits (n + 1) location :=
        hplaced ▸ sits_of_mem_placed hn hdepth h
      have hdataset : (Dataset.ofEdits edits).toRecord.Obeys (c.nests (n + 1)) :=
        (Dataset.toRecord_ofEdits edits).symm ▸ hrecord
      exact ⟨⟨hdataset, fun location hmem => (hlocations location hmem).obeys⟩, hlocations⟩
  | folder => exact ⟨hrecord, List.forall_mem_nil _⟩
  | group => exact ⟨hrecord, List.forall_mem_nil _⟩
  | location => exact ⟨hrecord, List.forall_mem_nil _⟩

/-- The induction is on the depth of what is read: each level of brackets is written as one. -/
theorem deepens (c : Codec) (n : Nat) : c.Deepens n := by
  induction n using Nat.strongRecOn with
  | ind n ih =>
      intro value d hdepth hread
      cases value with
      | array items =>
          rw [decode_array] at hread
          obtain ⟨values, hvalues, rfl⟩ := map_eq_ok_iff.mp hread
          have hlist : c.Bounded (itemsDepth items + 2) (.list values) := by
            apply bounded_list
            intro d hd
            obtain ⟨item, hitem, hdecode⟩ := exists_mem_of_mapM_eq_ok hvalues hd
            have hle : item.depth ≤ itemsDepth items := itemsDepth_le_iff.mp le_rfl item hitem
            exact ih (itemsDepth items) hdepth item d hle hdecode
          exact hlist.mono (Nat.succ_le_succ hdepth)
      | object members =>
          rcases decode_object_cases hread with
            ⟨entry, -, -, rfl⟩ | ⟨kind, edits, -, hedits, rfl⟩
          · exact (bounded_pair entry.1 entry.2).mono (Nat.le_add_left 1 n)
          · have hentity : c.Nests (membersDepth members + 1) (.build kind edits) :=
              nests_build (fun m hm => ih m (lt_of_le_of_lt hm hdepth)) le_rfl hedits
            exact (bounded_entity hentity).mono (Nat.succ_le_succ hdepth)
      | _ =>
          cases hread
          apply bounded_plain
          trivial

/-- What is read and written again nests at most one level deeper. -/
theorem depth_of_decode {value written : Json} {d : Decoded} (hread : c.decode value = .ok d)
    (hwritten : c.encode d = .ok written) : written.depth ≤ value.depth + 1 :=
  (c.deepens value.depth value d le_rfl hread).document written hwritten

end Codec

end DataCatalog
