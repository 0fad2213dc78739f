import DataCatalog.Proofs.Encodable
import DataCatalog.Proofs.Reordering
import DataCatalog.Proofs.Rewritten

/-!
# The order of members does not matter

Documents that differ in the order of members alone are read alike: both or neither are read, and
then the results are the same.  The order shows in a record only in the order of its extra fields,
which equality ignores.  An extra field is kept as it would be written, so what is written of results
that are the same must be the same again; this is carried along through the whole document.
-/

namespace DataCatalog

variable {s : Shape}

/-! ## Equality of what is read -/

mutual

/-- Equality of what is read, the order of members in extra fields aside. -/
def Decoded.same : Decoded → Decoded → Bool
  | .entity a, .entity b => a.same b
  | .pair key x, .pair other y => key == other && x.same y
  | .list xs, .list ys => sameItems xs ys
  | .json x, .json y => x.same y
  | _, _ => false

def Decoded.sameItems : List Decoded → List Decoded → Bool
  | [], [] => true
  | x :: xs, y :: ys => x.same y && sameItems xs ys
  | _, _ => false

end

theorem Decoded.sameItems_iff {items others : List Decoded} :
    sameItems items others = true ↔
      List.Forall₂ (fun item other => item.same other = true) items others := by
  induction items generalizing others with
  | nil => cases others <;> simp [sameItems]
  | cons item rest ih =>
      cases others with
      | nil => simp [sameItems]
      | cons other more => simp [sameItems, ih]

theorem Dataset.same_iff {d e : Dataset} :
    d.same e = true ↔ d.toRecord.same e.toRecord = true ∧
      List.Forall₂ (fun a b => Record.same a b = true) d.locations e.locations := by
  rw [same, Bool.and_eq_true, Bool.and_eq_true, beq_iff_eq, List.all_eq_true,
    List.forall₂_iff_zip, and_assoc]
  refine and_congr_right fun _ => and_congr_right fun _ => ?_
  exact ⟨fun h _ _ hmem => h _ hmem, fun h pair hmem => h hmem⟩

/-! ## Records that differ in the order of extra fields -/

/-- The named fields are equal, and the extra fields are the same. -/
structure Record.Alike (r q : Record s) : Prop where
  named : ∀ f, r.get? f = q.get? f
  extras : r.extras.toJson.same q.extras.toJson = true

inductive Entity.Alike : Entity → Entity → Prop
  | dataset {d e : Dataset} (hrecord : d.toRecord.Alike e.toRecord)
      (hlocations : List.Forall₂ Record.Alike d.locations e.locations) :
      Alike (.dataset d) (.dataset e)
  | folder {r q : Container} (h : Record.Alike r q) : Alike (.folder r) (.folder q)
  | group {r q : Container} (h : Record.Alike r q) : Alike (.group r) (.group q)
  | location {r q : Location} (h : Record.Alike r q) : Alike (.location r) (.location q)

theorem Scalar.same_self {x : Scalar} (h : x.IsFinite) : x.same x = true := by
  obtain ⟨value, hvalue⟩ := Codec.encodeScalar_succeeds h
  exact Codec.same_self_of_encodeScalar hvalue

theorem FieldType.same_self {type : FieldType} {v : type.Value} (h : type.IsFinite v) :
    type.same v v = true := by
  cases type with
  | integer => exact beq_self_eq_true (α := Int64) v
  | text => exact beq_self_eq_true (α := String) v
  | metadata => exact Metadata.same_self fun entry hentry => Scalar.same_self (h entry hentry)

theorem Record.Alike.same {r q : Record s} (h : r.Alike q) (hr : r.Obeys .finite) :
    r.same q = true := by
  rw [Record.same, Bool.and_eq_true, List.all_eq_true]
  refine ⟨fun f _ => ?_, h.extras⟩
  have hnamed : r.named f = q.named f :=
    Option.map_injective Subtype.val_injective (h.named f)
  rw [sameField, ← hnamed]
  cases hvalue : r.named f with
  | none => rfl
  | some v => exact FieldType.same_self (hr.named f v.val (by rw [get?, hvalue]; rfl))

theorem Entity.Alike.same {e e' : Entity} (h : e.Alike e') (he : e.Obeys .finite) :
    e.same e' = true := by
  cases h with
  | dataset hrecord hlocations =>
      refine Dataset.same_iff.mpr ⟨hrecord.same he.record, ?_⟩
      refine forall₂_imp_of_mem hlocations fun location hmem other _ halike => ?_
      exact halike.same (he.locations location hmem)
  | folder h => exact h.same he
  | group h => exact h.same he
  | location h => exact h.same he

namespace Codec

variable {c : Codec}

/-! ## What is written of them is the same -/

/-- The members before the extra fields. -/
def encodeOwn (c : Codec) : Entity → Except Error (List (String × Json))
  | .dataset d => do
    let named ← c.encodeNamed d.toRecord Shape.dataset.fields
    let locations ← c.encodeLocations d.locations
    .ok (named ++ locations)
  | .folder r => c.encodeNamed r Shape.container.fields
  | .group r => c.encodeNamed r Shape.container.fields
  | .location r => c.encodeNamed r Shape.location.fields

theorem encodeBody_eq_encodeOwn (e : Entity) :
    c.encodeBody e = (c.encodeOwn e).map (· ++ e.extraFields) := by
  cases e with
  | dataset d =>
      rw [encodeBody, encodeDataset, encodeOwn]
      cases c.encodeNamed d.toRecord Shape.dataset.fields with
      | error e => rfl
      | ok named => cases c.encodeLocations d.locations <;> rfl
  | folder r => rfl
  | group r => rfl
  | location r => rfl

/-- Two lists of members have the same keys in the same order, and the same values. -/
abbrev SameInOrder : List (String × Json) → List (String × Json) → Prop :=
  List.Forall₂ fun a b => b.1 = a.1 ∧ a.2.same b.2 = true

theorem sameInOrder_self {members : List (String × Json)} (h : (Json.object members).WellFormed) :
    SameInOrder members members :=
  List.forall₂_same.mpr fun member hmem =>
    ⟨rfl, Json.same_self_of_mem_members members h.2 member hmem⟩

theorem encodeNamed_agrees {r q : Record s} (h : r.Alike q) :
    Agrees SameInOrder (c.encodeNamed r s.fields) (c.encodeNamed q s.fields) := by
  have heq : ∀ fields, c.encodeNamed r fields = c.encodeNamed q fields := by
    intro fields
    induction fields with
    | nil => rfl
    | cons f rest ih => rw [encodeNamed, encodeNamed, h.named f, ih]
  exact .of_eq (heq s.fields) fun _ hmembers =>
    sameInOrder_self (wellFormed_of_encodeNamed (nodup_map_key s) hmembers)

theorem encodeBody_agrees {e e' : Entity}
    (hown : Agrees SameInOrder (c.encodeOwn e) (c.encodeOwn e'))
    (hextras : (Json.object e.extraFields).same (.object e'.extraFields) = true) :
    Agrees (fun body body' => (Json.object body).same (.object body') = true)
      (c.encodeBody e) (c.encodeBody e') := by
  rw [encodeBody_eq_encodeOwn, encodeBody_eq_encodeOwn]
  refine hown.with_eq.map fun own own' ⟨hsame, hx, _⟩ => ?_
  have hbody : c.encodeBody e = .ok (own ++ e.extraFields) := by
    rw [encodeBody_eq_encodeOwn, hx, map_ok]
  exact Json.same_append hsame hextras (writesExactly_of_encodeBody hbody).distinct

theorem encodeLocations_agrees {locations others : List Location}
    (h : List.Forall₂ Record.Alike locations others) :
    Agrees SameInOrder (c.encodeLocations locations) (c.encodeLocations others) := by
  have hitems : Agrees (List.Forall₂ fun x y => Json.same x y = true)
      (locations.mapM fun location => (c.encodeRecord location).map Json.object)
      (others.mapM fun location => (c.encodeRecord location).map Json.object) := by
    refine .mapM (h.imp fun r q halike => ?_)
    have hbody : Agrees (fun body body' => (Json.object body).same (.object body') = true)
        (c.encodeBody (.location r)) (c.encodeBody (.location q)) :=
      encodeBody_agrees (encodeNamed_agrees halike) halike.extras
    exact hbody.map fun _ _ hsame => hsame
  cases h with
  | nil => exact .nil
  | cons hhead hrest =>
      rw [encodeLocations, encodeLocations, if_neg (List.cons_ne_nil _ _),
        if_neg (List.cons_ne_nil _ _)]
      refine hitems.bind fun items items' hsame => ?_
      exact .cons ⟨rfl, Json.sameItems_iff.mpr hsame⟩ .nil

/-- Records that are alike are both written or neither, and what is written is the same. -/
theorem encodeEntity_agrees {e e' : Entity} (h : e.Alike e') :
    Agrees (fun x y => Json.same x y = true) (c.encodeEntity e) (c.encodeEntity e') := by
  have hbody : e.kind = e'.kind ∧ Agrees SameInOrder (c.encodeOwn e) (c.encodeOwn e') ∧
      (Json.object e.extraFields).same (.object e'.extraFields) = true := by
    cases h with
    | dataset hrecord hlocations =>
        refine ⟨rfl, ?_, hrecord.extras⟩
        refine (encodeNamed_agrees hrecord).bind fun named named' hnamed => ?_
        refine (encodeLocations_agrees hlocations).map fun placed placed' hplaced => ?_
        exact List.rel_append hnamed hplaced
    | folder h => exact ⟨rfl, encodeNamed_agrees h, h.extras⟩
    | group h => exact ⟨rfl, encodeNamed_agrees h, h.extras⟩
    | location h => exact ⟨rfl, encodeNamed_agrees h, h.extras⟩
  obtain ⟨hkind, hown, hextras⟩ := hbody
  rw [encodeEntity, encodeEntity, hkind]
  refine (encodeBody_agrees hown hextras).with_eq.map fun body body' ⟨hsame, hx, _⟩ => ?_
  have htag : SameInOrder [(Shape.tagKey, .string e'.kind.tag)]
      [(Shape.tagKey, .string e'.kind.tag)] :=
    .cons ⟨rfl, beq_self_eq_true _⟩ .nil
  have hexact := writesExactly_of_encodeBody hx
  exact Json.same_append htag hsame (List.nodup_cons.mpr ⟨hexact.untagged, hexact.distinct⟩)

/-! ## What counterparts make of a record -/

/-- Whatever they stand for, the values under the key are read alike. -/
structure MemberAgrees (c : Codec) (key : String) (x y : Json) : Prop where
  field : ∀ f : Field, f.key = key →
    Agrees Eq (c.readField key f.type x) (c.readField key f.type y)
  extra : Agrees (fun kept kept' => Json.same kept kept' = true)
    (c.canonicalExtra key x) (c.canonicalExtra key y)
  locations : Agrees (List.Forall₂ Record.Alike) (c.readLocations x) (c.readLocations y)

variable {members others : List (String × Json)}

theorem MemberAgrees.readMember {key : String} {x y : Json} (h : c.MemberAgrees key x y)
    (s : Shape) :
    Agrees (fun _ _ => True) (c.readMember s key x) (c.readMember s key y) := by
  cases hfield : s.field? key with
  | some field =>
      obtain ⟨f, has⟩ := field
      have hkey : f.key = key := Shape.key_of_field? hfield
      subst hkey
      rw [readMember_field c has, readMember_field c has]
      exact (h.field f rfl).map fun _ _ _ => trivial
  | none =>
      by_cases hplace : s = .dataset ∧ key = Shape.locationsKey
      · obtain ⟨rfl, rfl⟩ := hplace
        rw [readMember_locations, readMember_locations]
        exact h.locations.map fun _ _ _ => trivial
      · rw [readMember_extra c x hfield hplace, readMember_extra c y hfield hplace]
        exact h.extra.map fun _ _ _ => trivial

theorem readMembers_succeeds_congr (h : Entries.Matches c.MemberAgrees members others)
    (s : Shape) : Succeeds (c.readMembers s members) ↔ Succeeds (c.readMembers s others) := by
  rw [readMembers_succeeds_iff, readMembers_succeeds_iff]
  constructor
  · rintro hmembers ⟨key, y⟩ hy
    obtain ⟨x, hx, hagrees⟩ := h.exists_left hy
    exact (hagrees.readMember s).succeeds_iff.mp (hmembers (key, x) hx)
  · intro hothers member hmem
    obtain ⟨y, hy, hagrees⟩ := h.counterpart member hmem
    exact (hagrees.readMember s).succeeds_iff.mpr (hothers _ hy)

section

variable {edits edits' : List (Edit s)} (h : Entries.Matches c.MemberAgrees members others)
  (hedits : c.readMembers s members = .ok edits) (hedits' : c.readMembers s others = .ok edits')

include h hedits hedits'

theorem lastValue?_eq_of_matches {f : Field} (has : f ∈ s.fields) :
    Edit.lastValue? f edits = Edit.lastValue? f edits' := by
  rcases h.get?_cases f.key with ⟨hx, hy⟩ | ⟨x, y, hx, hy, hagrees⟩
  · rw [lastValue?_of_notMem hedits (Entries.get?_eq_none_iff.mp hx),
      lastValue?_of_notMem hedits' (Entries.get?_eq_none_iff.mp hy)]
  · exact (hagrees.field f rfl).related
      (lastValue?_of_mem has h.distinct hedits (Entries.mem_of_get? hx))
      (lastValue?_of_mem has h.distinctOthers hedits' (Entries.mem_of_get? hy))

theorem lastExtra?_same_of_matches {key : String} (hkey : key ∉ s.reserved) :
    (Edit.lastExtra? key edits = none ∧ Edit.lastExtra? key edits' = none) ∨
      ∃ x y, Edit.lastExtra? key edits = some x ∧ Edit.lastExtra? key edits' = some y ∧
        x.same y = true := by
  rcases h.get?_cases key with ⟨hx, hy⟩ | ⟨x, y, hx, hy, hagrees⟩
  · exact .inl ⟨lastExtra?_of_notMem hedits (Entries.get?_eq_none_iff.mp hx),
      lastExtra?_of_notMem hedits' (Entries.get?_eq_none_iff.mp hy)⟩
  · obtain ⟨kept, hkept, hlast⟩ :=
      lastExtra?_of_mem hkey h.distinct hedits (Entries.mem_of_get? hx)
    obtain ⟨kept', hkept', hlast'⟩ :=
      lastExtra?_of_mem hkey h.distinctOthers hedits' (Entries.mem_of_get? hy)
    have hsame : kept.same kept' = true := hagrees.extra.related hkept hkept'
    rw [hlast, hlast', Json.truthy_eq_of_same hsame]
    split
    · exact .inr ⟨kept, kept', rfl, rfl, hsame⟩
    · exact .inl ⟨rfl, rfl⟩

theorem alike_ofEdits : (Record.ofEdits edits).Alike (Record.ofEdits edits') where
  named f := by
    by_cases has : f ∈ s.fields
    · rw [(Record.reflects_ofEdits edits).named, (Record.reflects_ofEdits edits').named,
        lastValue?_eq_of_matches h hedits hedits' has]
    · rw [Record.get?, Record.get?, Record.absent _ f has, Record.absent _ f has]
  extras := by
    have hreflects := Record.reflects_ofEdits edits
    have hreflects' := Record.reflects_ofEdits edits'
    have hkeys : ∀ key, key ∈ Entries.keys (Record.ofEdits edits).extras.entries ↔
        key ∈ Entries.keys (Record.ofEdits edits').extras.entries := by
      intro key
      by_cases hkey : key ∈ s.reserved
      · exact iff_of_false (fun hmem => hreflects.extraKeysAllowed key hmem hkey)
          (fun hmem => hreflects'.extraKeysAllowed key hmem hkey)
      · rw [← not_iff_not, ← Entries.get?_eq_none_iff, ← Entries.get?_eq_none_iff,
          hreflects.extraValue, hreflects'.extraValue]
        rcases lastExtra?_same_of_matches h hedits hedits' hkey with
          ⟨hx, hy⟩ | ⟨x, y, hx, hy, -⟩
        · rw [hx, hy]
        · rw [hx, hy]
          exact iff_of_false (Option.some_ne_none x) (Option.some_ne_none y)
    have hperm := (List.perm_ext_iff_of_nodup hreflects.extraKeysDistinct
      hreflects'.extraKeysDistinct).mpr hkeys
    refine Json.same_object_iff.mpr ⟨by simpa [Entries.keys] using hperm.length_eq, ?_⟩
    intro member hmem
    have hkey : member.1 ∉ s.reserved :=
      hreflects.extraKeysAllowed _ (Entries.mem_keys_of_mem hmem)
    have hget : Edit.lastExtra? member.1 edits = some member.2 := by
      rw [← hreflects.extraValue]
      exact (Entries.get?_eq_some_iff hreflects.extraKeysDistinct).mpr hmem
    rw [hreflects'.extraValue]
    rcases lastExtra?_same_of_matches h hedits hedits' hkey with ⟨hx, -⟩ | ⟨x, y, hx, hy, hsame⟩
    · rw [hget] at hx
      cases hx
    · rw [hget] at hx
      cases hx
      exact ⟨y, hy, hsame⟩

end

theorem placed_alike {edits edits' : List (Edit .dataset)}
    (h : Entries.Matches c.MemberAgrees members others)
    (hedits : c.readMembers .dataset members = .ok edits)
    (hedits' : c.readMembers .dataset others = .ok edits') :
    List.Forall₂ Record.Alike (Edit.placed edits) (Edit.placed edits') := by
  rcases h.get?_cases Shape.locationsKey with ⟨hx, hy⟩ | ⟨x, y, hx, hy, hagrees⟩
  · rw [placed_of_notMem hedits (Entries.get?_eq_none_iff.mp hx),
      placed_of_notMem hedits' (Entries.get?_eq_none_iff.mp hy)]
    exact .nil
  · exact hagrees.locations.related
      (placed_of_mem h.distinct hedits (Entries.mem_of_get? hx))
      (placed_of_mem h.distinctOthers hedits' (Entries.mem_of_get? hy))

theorem alike_dataset {edits edits' : List (Edit .dataset)}
    (h : Entries.Matches c.MemberAgrees members others)
    (hedits : c.readMembers .dataset members = .ok edits)
    (hedits' : c.readMembers .dataset others = .ok edits') :
    (Entity.dataset (.ofEdits edits)).Alike (.dataset (.ofEdits edits')) := by
  refine .dataset ?_ ?_
  · rw [Dataset.toRecord_ofEdits, Dataset.toRecord_ofEdits]
    exact alike_ofEdits h hedits hedits'
  · rw [Dataset.locations_ofEdits, Dataset.locations_ofEdits]
    exact placed_alike h hedits hedits'

theorem alike_build {kind : EntityKind} {edits edits' : List (Edit kind.shape)}
    (h : Entries.Matches c.MemberAgrees members others)
    (hedits : c.readMembers kind.shape members = .ok edits)
    (hedits' : c.readMembers kind.shape others = .ok edits') :
    (Entity.build kind edits).Alike (Entity.build kind edits') := by
  cases kind with
  | dataset => exact alike_dataset h hedits hedits'
  | folder => exact .folder (alike_ofEdits h hedits hedits')
  | group => exact .group (alike_ofEdits h hedits hedits')
  | location => exact .location (alike_ofEdits h hedits hedits')

/-! ## Through a whole document -/

/-- The values are the same, and so are the forms in which they are kept as extra fields. -/
structure Twins (c : Codec) (d d' : Decoded) : Prop where
  same : d.same d' = true
  canonical : Agrees (fun x y => Json.same x y = true) (c.canonical d) (c.canonical d')

theorem twins_pair {entry : String × Scalar} (h : entry.2.IsFinite) :
    c.Twins (.pair entry.1 entry.2) (.pair entry.1 entry.2) where
  same := by
    rw [Decoded.same, beq_self_eq_true, Bool.true_and]
    exact Scalar.same_self h
  canonical := .of_eq rfl fun _ hkept => Json.same_self _ (wellFormed_of_encodeTriple hkept)

theorem twins_list {values values' : List Decoded} (h : List.Forall₂ c.Twins values values') :
    c.Twins (.list values) (.list values') where
  same := Decoded.sameItems_iff.mpr (h.imp fun _ _ htwins => htwins.same)
  canonical := by
    rw [canonical, canonical, canonicalAll_eq_mapM, canonicalAll_eq_mapM]
    refine (Agrees.mapM (h.imp fun _ _ htwins => htwins.canonical)).map fun _ _ hforms => ?_
    exact Json.sameItems_iff.mpr hforms

theorem stored_agrees {key : String} {read read' : Except Error Decoded}
    (h : Agrees c.Twins read read') :
    Agrees (fun x y => Json.same x y = true) (c.stored key read) (c.stored key read') := by
  cases read with
  | ok d =>
      cases read' with
      | ok d' => exact Twins.canonical h
      | error e => cases h
  | error e =>
      cases read' with
      | ok d' => cases h
      | error f => trivial

theorem readLocation_agrees (hmatches : Entries.Matches c.MemberAgrees members others)
    (htag : AlikeUnder Shape.tagKey members others) :
    Agrees Record.Alike (c.readLocation (.object members)) (c.readLocation (.object others)) := by
  have hcheck : checkLocationTag others = checkLocationTag members := by
    rw [checkLocationTag, checkLocationTag, taggedKind_congr htag]
  rw [readLocation, readLocation, hcheck]
  cases checkLocationTag members with
  | error e => trivial
  | ok tag =>
      have hread : Agrees (fun edits edits' =>
          (Record.ofEdits edits).Alike (Record.ofEdits edits'))
          (c.readMembers .location members) (c.readMembers .location others) :=
        .of_succeeds (readMembers_succeeds_congr hmatches .location)
          fun _ _ => alike_ofEdits hmatches
      exact hread.map fun _ _ => id

theorem decode_object_agrees (hmatches : Entries.Matches c.MemberAgrees members others)
    (halike : ∀ key, AlikeUnder key members others) :
    Agrees c.Twins (c.decode (.object members)) (c.decode (.object others)) := by
  have hrole : c.role others = c.role members := role_eq_of_alike halike
  cases hx : c.role members with
  | error e =>
      rw [decode, decode, hrole, hx]
      trivial
  | ok role =>
      rw [hx] at hrole
      cases role with
      | triple =>
          rw [decode_object_of_triple hx, decode_object_of_triple hrole]
          refine (readTriple_agrees halike).with_eq.map fun entry _ ⟨heq, hread, _⟩ => ?_
          subst heq
          exact twins_pair ((readTriple_yields members).result hread)
      | entity kind =>
          rw [decode_object_of_entity hx, decode_object_of_entity hrole]
          have hentities : Agrees (fun edits edits' =>
              (Entity.build kind edits).Alike (Entity.build kind edits'))
              (c.readMembers kind.shape members) (c.readMembers kind.shape others) :=
            .of_succeeds (readMembers_succeeds_congr hmatches kind.shape)
              fun _ _ => alike_build hmatches
          refine hentities.with_eq.map fun edits edits' ⟨hentity, hread, _⟩ => ?_
          have hedits := ((finiteResults c).reading.readMembers kind.shape members).result hread
          exact ⟨hentity.same (Entity.obeys_build kind hedits), encodeEntity_agrees hentity⟩

theorem reorders_of_reordersMetadata {x y : Json} (hy : y.WellFormed)
    (h : x.ReordersMetadata y) : x.Reorders y := by
  cases x with
  | object members =>
      obtain ⟨others, rfl, hinOrder⟩ := h
      have hpairs := Json.reordersInOrder_iff.mp hinOrder
      refine ⟨others, rfl, hpairs.length_eq, Json.reordersMembers_iff.mpr fun member hmem => ?_⟩
      obtain ⟨⟨_, value⟩, hother, rfl, hvalue⟩ := exists_of_forall₂ hpairs hmem
      exact ⟨value, hother, hvalue⟩
  | array items => exact h
  | null => exact h
  | bool value => exact h
  | number value => exact h
  | string value => exact h

theorem key_mem_orderedKeys {f : Field} (h : f.type = .metadata) : f.key ∈ Json.orderedKeys := by
  revert h
  cases f <;> decide

theorem readField_agrees {key : String} {type : FieldType} {x y : Json}
    (hordered : type = .metadata → key ∈ Json.orderedKeys) (hx : x.WellFormed)
    (hy : y.WellFormed) (h : Json.ReordersUnder key x y) :
    Agrees Eq (c.readField key type x) (c.readField key type y) := by
  cases type with
  | integer => exact readInteger_agrees (Json.sameForm_of_reordersUnder h) key
  | text => exact readText_agrees (Json.sameForm_of_reordersUnder h) key
  | metadata =>
      rw [Json.ReordersUnder, if_pos (hordered rfl)] at h
      refine (readMetadata_agrees key hx hy h).map fun m _ heq => ?_
      rw [heq]

/-- A member agrees with its counterpart if what is inside their values is read alike. -/
theorem memberAgrees_of_reorders {key : String} {x y : Json} (hx : x.WellFormed)
    (hy : y.WellFormed) (h : Json.ReordersUnder key x y)
    (hdecode : Agrees c.Twins (c.decode x) (c.decode y))
    (hlocations : Agrees (List.Forall₂ Record.Alike) (c.readLocations x) (c.readLocations y)) :
    c.MemberAgrees key x y where
  field f hkey := by
    subst hkey
    exact readField_agrees key_mem_orderedKeys hx hy h
  extra := by
    rw [canonicalExtra, canonicalExtra]
    split
    · next hversion =>
        subst hversion
        refine (readMetadata_agrees _ hx hy ?_).bind fun m _ heq => ?_
        · exact h
        · subst heq
          exact .of_eq rfl fun kept hkept => Json.same_self kept (wellFormed_of_storedMetadata hkept)
    · exact stored_agrees hdecode
  locations := hlocations

mutual

theorem decode_agrees :
    (x : Json) → {y : Json} → x.WellFormed → y.WellFormed → x.Reorders y →
      Agrees c.Twins (c.decode x) (c.decode y)
  | .array items, _, hx, hy, h => by
      obtain ⟨others, rfl, hitems⟩ := h
      rw [decode_array, decode_array]
      exact (decodeItems_agrees items hx hy hitems).map fun _ _ => twins_list
  | .object members, _, hx, hy, h => by
      obtain ⟨others, rfl, -, hmembers⟩ := id h
      have hmatches := Json.matches_of_reorders hx hy h
      refine decode_object_agrees ?_ (alikeUnder_of_matches hmatches)
      exact ⟨hx.1, hy.1, hmatches.length_eq,
        counterparts_agree members hx.2 (Json.wellFormed_object_iff.mp hy).2 hmembers⟩
  | .null, _, _, _, h => by
      cases h
      exact ⟨rfl, rfl⟩
  | .bool value, _, _, _, h => by
      cases h
      exact ⟨beq_self_eq_true value, beq_self_eq_true value⟩
  | .number value, _, _, _, h => by
      cases h
      exact ⟨value.same_self, value.same_self⟩
  | .string value, _, _, _, h => by
      cases h
      exact ⟨beq_self_eq_true value, beq_self_eq_true value⟩
termination_by structural x => x

theorem decodeItems_agrees :
    (items : List Json) → {others : List Json} → Json.ItemsWellFormed items →
      Json.ItemsWellFormed others → Json.ReordersItems items others →
      Agrees (List.Forall₂ c.Twins) (items.mapM c.decode) (others.mapM c.decode)
  | [], _, _, _, h => by
      cases h
      exact .nil
  | item :: rest, _, hx, hy, h => by
      obtain ⟨first, more, rfl, hfirst, hmore⟩ := h
      rw [List.mapM_cons, List.mapM_cons]
      refine (decode_agrees item hx.1 hy.1 hfirst).bind fun d d' htwins => ?_
      exact (decodeItems_agrees rest hx.2 hy.2 hmore).bind fun _ _ hrest => .cons htwins hrest
termination_by structural items => items

theorem counterparts_agree :
    (members : List (String × Json)) → {others : List (String × Json)} →
      Json.MembersWellFormed members → (∀ other ∈ others, other.2.WellFormed) →
      Json.ReordersMembers members others → ∀ member ∈ members,
        ∃ other, (member.1, other) ∈ others ∧ c.MemberAgrees member.1 member.2 other
  | [], _, _, _, _ => List.forall_mem_nil _
  | (key, value) :: rest, others, hx, hy, h => by
      obtain ⟨⟨other, hother, hvalue⟩, hrest⟩ := h
      have hwell : other.WellFormed := hy _ hother
      have hreorders : value.Reorders other := by
        split at hvalue
        · exact reorders_of_reordersMetadata hwell hvalue
        · exact hvalue
      refine List.forall_mem_cons.mpr ⟨⟨other, hother, ?_⟩, counterparts_agree rest hx.2 hy hrest⟩
      exact memberAgrees_of_reorders hx.1 hwell hvalue (decode_agrees value hx.1 hwell hreorders)
        (readLocations_agrees value hx.1 hwell hreorders)
termination_by structural members => members

theorem readLocations_agrees :
    (x : Json) → {y : Json} → x.WellFormed → y.WellFormed → x.Reorders y →
      Agrees (List.Forall₂ Record.Alike) (c.readLocations x) (c.readLocations y)
  | .array items, _, hx, hy, h => by
      obtain ⟨others, rfl, hitems⟩ := h
      rw [readLocations, readLocations, readLocationItems_eq_mapM, readLocationItems_eq_mapM]
      exact readLocationItems_agrees items hx hy hitems
  | .object members, _, _, _, h => by
      obtain ⟨others, rfl, -, -⟩ := h
      trivial
  | .null, _, _, _, h => by
      cases h
      exact .nil
  | .bool _, _, _, _, h => by
      cases h
      trivial
  | .number _, _, _, _, h => by
      cases h
      trivial
  | .string _, _, _, _, h => by
      cases h
      trivial
termination_by structural x => x

theorem readLocationItems_agrees :
    (items : List Json) → {others : List Json} → Json.ItemsWellFormed items →
      Json.ItemsWellFormed others → Json.ReordersItems items others →
      Agrees (List.Forall₂ Record.Alike) (items.mapM c.readLocation) (others.mapM c.readLocation)
  | [], _, _, _, h => by
      cases h
      exact .nil
  | .object members :: rest, _, hx, hy, h => by
      obtain ⟨_, more, rfl, hfirst, hmore⟩ := h
      obtain ⟨others, rfl, -, hmembers⟩ := id hfirst
      have hmatches := Json.matches_of_reorders hx.1 hy.1 hfirst
      have hagrees : Entries.Matches c.MemberAgrees members others :=
        ⟨hx.1.1, hy.1.1, hmatches.length_eq,
          counterparts_agree members hx.1.2 (Json.wellFormed_object_iff.mp hy.1).2 hmembers⟩
      rw [List.mapM_cons, List.mapM_cons]
      refine (readLocation_agrees hagrees (alikeUnder_of_matches hmatches _)).bind fun r q halike => ?_
      exact (readLocationItems_agrees rest hx.2 hy.2 hmore).bind
        fun _ _ hrest => .cons halike hrest
  | .array _ :: _, _, _, _, h => by
      obtain ⟨_, more, rfl, ⟨others, rfl, -⟩, -⟩ := h
      trivial
  | .null :: _, _, _, _, h => by
      obtain ⟨_, more, rfl, rfl, -⟩ := h
      trivial
  | .bool _ :: _, _, _, _, h => by
      obtain ⟨_, more, rfl, rfl, -⟩ := h
      trivial
  | .number _ :: _, _, _, _, h => by
      obtain ⟨_, more, rfl, rfl, -⟩ := h
      trivial
  | .string _ :: _, _, _, _, h => by
      obtain ⟨_, more, rfl, rfl, -⟩ := h
      trivial
termination_by structural items => items

end

/-- Documents that differ in the order of members alone are both read or neither, and what is read
is the same. -/
theorem decode_reorders (c : Codec) {x y : Json} (hx : x.WellFormed) (hy : y.WellFormed)
    (h : x.Reorders y) :
    ((∃ d, c.decode x = .ok d) ↔ ∃ d, c.decode y = .ok d) ∧
      ∀ d d', c.decode x = .ok d → c.decode y = .ok d' → d.same d' = true := by
  have hagrees := decode_agrees (c := c) x hx hy h
  exact ⟨hagrees.succeeds_iff, fun d d' hd hd' => (hagrees.related hd hd').same⟩

/-- The members of a dataset, of its location, of an entry in an extra field and of a metadata entry
change places; those of the metadata do not. -/
theorem decode_reorders_dataset :
    let c : Codec := ⟨.standard, some .folder⟩
    let triple : List (String × Json) := tripleMembers "count" (.string "7") "integer"
    let metadata : Json := .object [("b", .ofInt64 2), ("a", .ofInt64 1)]
    let x : Json := .object [(Shape.tagKey, .string "dataset"), ("metadata", metadata),
      ("versionMetadata", .array [.object triple]),
      (Shape.locationsKey, .array [.object [("site", .string "SLAC"), ("run", .ofInt64 7)]]),
      ("parts", .object [("u", .array []), ("w", .bool true), ("v", .null)])]
    let y : Json := .object [("parts", .object [("w", .bool true), ("v", .null), ("u", .array [])]),
      (Shape.locationsKey, .array [.object [("run", .ofInt64 7), ("site", .string "SLAC")]]),
      ("versionMetadata", .array [.object triple.reverse]), ("metadata", metadata),
      (Shape.tagKey, .string "dataset")]
    x.WellFormed ∧ y.WellFormed ∧ x.Reorders y ∧
      ((∃ d, c.decode x = .ok d) ↔ ∃ d, c.decode y = .ok d) ∧
      ∀ d d', c.decode x = .ok d → c.decode y = .ok d' → d.same d' = true := by
  intro c triple metadata x y
  have hx : x.WellFormed := by
    simp [x, triple, metadata, tripleMembers, Json.WellFormed, Json.MembersWellFormed,
      Json.ItemsWellFormed, Shape.tagKey, Shape.locationsKey, Json.ofInt64]
  have hy : y.WellFormed := by
    simp [y, triple, metadata, tripleMembers, Json.WellFormed, Json.MembersWellFormed,
      Json.ItemsWellFormed, Shape.tagKey, Shape.locationsKey, Json.ofInt64]
  have hreorders : x.Reorders y := by
    simp [x, y, triple, metadata, tripleMembers, Json.Reorders, Json.ReordersMembers,
      Json.ReordersItems, Json.ReordersMetadata, Json.ReordersInOrder, Json.orderedKeys,
      Shape.tagKey, Shape.locationsKey, Json.ofInt64, Field.key]
  exact ⟨hx, hy, hreorders, decode_reorders c hx hy hreorders⟩

end Codec

end DataCatalog
