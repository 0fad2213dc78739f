import DataCatalog.Proofs.Encodable
import DataCatalog.Proofs.Rewritten

/-!
# Reading loses nothing that carries information

An object that is read as an entry, and what is then written of it, have the same members, apart
from those whose values carry no information.  Extra fields keep their order, and plain ones are
written unchanged.  The same holds of the locations of a dataset, which keep their number and order,
and of every entry to which arrays, extra fields and locations lead.  An object that is read as a
metadata entry is kept as its key, value and type; whatever else it holds is dropped.
-/

namespace DataCatalog

variable {s : Shape}

/-- What is written has no members but those of the object, and all of them that carry
information; extra fields are in order, and plain ones are unchanged. -/
structure Shape.Carries (s : Shape) (members written : List (String × Json)) : Prop where
  known : ∀ key ∈ Entries.keys written, key ≠ tagKey → key ∈ Entries.keys members
  kept : ∀ member ∈ members, member.1 ≠ tagKey → member.2.truthy = true →
    member.1 ∈ Entries.keys written
  order : ((Entries.keys written).filter fun key => key ∉ s.reserved).Sublist (Entries.keys members)
  plain : ∀ member ∈ members, member.1 ∉ s.reserved → member.2.Plain → member.2.truthy = true →
    member ∈ written

mutual

/-- The objects in a value, at every depth. -/
def Json.objects : Json → List (List (String × Json))
  | .array items => objectsOfItems items
  | .object members => members :: objectsOfMembers members
  | _ => []

def Json.objectsOfItems : List Json → List (List (String × Json))
  | [] => []
  | item :: rest => item.objects ++ objectsOfItems rest

def Json.objectsOfMembers : List (String × Json) → List (List (String × Json))
  | [] => []
  | (_, value) :: rest => value.objects ++ objectsOfMembers rest

end

/-- Keys that came later are dropped, the others stay in order. -/
theorem eraseDups_sublist (keys : List String) : keys.eraseDups.Sublist keys := by
  induction keys using List.reverseRecOn with
  | nil => exact .slnil
  | append_singleton keys key ih =>
      rw [List.eraseDups_append]
      refine ih.append ?_
      by_cases hmem : key ∈ keys <;> simp [List.removeAll, List.eraseDups_cons, hmem]

namespace Codec

variable {c : Codec}

namespace Rewrites

variable {kind : EntityKind} {members written : List (String × Json)}
  {edits : List (Edit kind.shape)} {key : String} {value : Json}

theorem extraKeys_sublist (h : c.Rewrites kind members edits written) :
    (Entries.keys (Entity.build kind edits).extraFields).Sublist (Entries.keys members) := by
  rw [(Entity.reflects_extraFields kind edits).2]
  exact (eraseDups_sublist _).trans
    ((Edit.keys_givenExtras_sublist edits).trans (keys_of_readMembers h.read))

theorem presentKeys_subset_ownKeys (kind : EntityKind) (edits : List (Edit kind.shape)) :
    ∀ key ∈ (Entity.build kind edits).presentKeys, key ∈ kind.shape.ownKeys := by
  intro key hkey
  have hown := (Entity.build kind edits).presentKeys_sublist.subset hkey
  rwa [Entity.kind_build] at hown

theorem known (h : c.Rewrites kind members edits written) (hkey : key ∈ Entries.keys written) :
    key ∈ Entries.keys members := by
  have hkeys := hkey
  rw [h.keys_eq, List.mem_append] at hkeys
  rcases hkeys with hpresent | hextra
  · by_contra habsent
    rcases Shape.mem_ownKeys.mp (presentKeys_subset_ownKeys kind edits key hpresent) with
      ⟨f, has, rfl⟩ | ⟨hshape, rfl⟩
    · rw [h.field_mem_keys_iff has, lastValue?_of_notMem h.read habsent] at hkey
      cases hkey
    · cases kind with
      | dataset => exact h.locationsKey_mem_keys_iff.mp hkey (placed_of_notMem h.read habsent)
      | folder => cases hshape
      | group => cases hshape
      | location => cases hshape
  · exact h.extraKeys_sublist.subset hextra

theorem kept (h : c.Rewrites kind members edits written) (hmem : (key, value) ∈ members)
    (hne : key ≠ Shape.tagKey) (htruthy : value.truthy = true) : key ∈ Entries.keys written := by
  by_cases hown : key ∈ kind.shape.ownKeys
  · rcases Shape.mem_ownKeys.mp hown with ⟨f, has, rfl⟩ | ⟨hshape, rfl⟩
    · rw [h.field_mem_keys_iff has, Option.isSome_iff_ne_none]
      intro hnone
      have hfalsy := falsy_of_readField (lastValue?_of_mem has h.distinct h.read hmem) hnone
      rw [hfalsy] at htruthy
      cases htruthy
    · cases kind with
      | dataset =>
          rw [h.locationsKey_mem_keys_iff]
          intro hnil
          have hlocations := placed_of_mem h.distinct h.read hmem
          rw [hnil] at hlocations
          rw [falsy_of_readLocations hlocations] at htruthy
          cases htruthy
      | folder => cases hshape
      | group => cases hshape
      | location => cases hshape
  · have hkey : key ∉ kind.shape.reserved := by
      rw [Shape.mem_reserved]
      exact not_or.mpr ⟨hne, hown⟩
    obtain ⟨form, -, hget⟩ := h.exists_kept hkey hmem htruthy
    exact Entries.mem_keys_of_mem (Entries.mem_of_get? hget)

theorem order (h : c.Rewrites kind members edits written) :
    ((Entries.keys written).filter fun key => key ∉ kind.shape.reserved).Sublist
      (Entries.keys members) := by
  have hown : (Entity.build kind edits).presentKeys.filter
      (fun key => key ∉ kind.shape.reserved) = [] := by
    refine List.filter_eq_nil_iff.mpr fun key hkey => ?_
    simpa using
      Shape.mem_reserved_of_mem_ownKeys (presentKeys_subset_ownKeys kind edits key hkey)
  rw [h.keys_eq, List.filter_append, hown, List.nil_append]
  exact List.filter_sublist.trans h.extraKeys_sublist

/-- A plain extra field is its own canonical form; metadata is never plain. -/
theorem plain (h : c.Rewrites kind members edits written) (hmem : (key, value) ∈ members)
    (hkey : key ∉ kind.shape.reserved) (hplain : value.Plain) (htruthy : value.truthy = true) :
    (key, value) ∈ written := by
  obtain ⟨form, hform, hget⟩ := h.exists_kept hkey hmem htruthy
  rw [canonicalExtra_of_plain hplain htruthy hform] at hget
  exact Entries.mem_of_get? hget

theorem carries (h : c.Rewrites kind members edits written) :
    kind.shape.Carries members written where
  known _ hkey _ := h.known hkey
  kept _ hmem hne htruthy := h.kept hmem hne htruthy
  order := h.order
  plain _ hmem hkey hplain htruthy := h.plain hmem hkey hplain htruthy

end Rewrites

/-! ## At every depth -/

mutual

/-- What is written keeps what a value says: arrays item by item, entries member by member, and
metadata entries by what is read of them. -/
def Retains (c : Codec) : Json → Json → Prop
  | .array items, written => ∃ kept, written = .array kept ∧ c.RetainsItems items kept
  | .object members, written =>
    (∃ kind body, c.role members = .ok (.entity kind) ∧
      written = .object ((Shape.tagKey, .string kind.tag) :: body) ∧
      kind.shape.Carries members body ∧ c.RetainsMembers kind.shape members body) ∨
    ∃ entry, c.role members = .ok .triple ∧ c.readTriple members = .ok entry ∧
      c.encodeTriple entry = .ok written
  | value, written => written = value
termination_by structural value => value

def RetainsItems (c : Codec) : List Json → List Json → Prop
  | [], written => written = []
  | item :: rest, written =>
    ∃ first more, written = first :: more ∧ c.Retains item first ∧ c.RetainsItems rest more
termination_by structural items => items

/-- Extra fields other than metadata, and the locations of a dataset, are kept in turn. -/
def RetainsMembers (c : Codec) (s : Shape) :
    List (String × Json) → List (String × Json) → Prop
  | [], _ => True
  | (key, value) :: rest, written =>
    (key ∉ s.reserved → key ≠ Field.versionMetadata.key → value.truthy = true →
      ∃ kept, Entries.get? key written = some kept ∧ c.Retains value kept) ∧
    (s = .dataset → key = Shape.locationsKey → value.truthy = true →
      ∃ kept, Entries.get? key written = some (.array kept) ∧ c.RetainsLocations value kept) ∧
    c.RetainsMembers s rest written
termination_by structural members => members

def RetainsLocations (c : Codec) : Json → List Json → Prop
  | .array items, written => c.RetainsLocationItems items written
  | _, _ => False
termination_by structural value => value

def RetainsLocationItems (c : Codec) : List Json → List Json → Prop
  | [], written => written = []
  | .object members :: rest, written =>
    ∃ body more, written = .object body :: more ∧ Shape.location.Carries members body ∧
      c.RetainsMembers .location members body ∧ c.RetainsLocationItems rest more
  | _ :: _, _ => False
termination_by structural items => items

end

mutual

theorem retains_of_canonical :
    (value : Json) → value.WellFormed → {d : Decoded} → {kept : Json} → c.decode value = .ok d →
      c.canonical d = .ok kept → c.Retains value kept
  | .array items, hwell, _, _, hread, hkept => by
      rw [decode_array] at hread
      obtain ⟨values, hvalues, rfl⟩ := map_eq_ok_iff.mp hread
      rw [canonical, canonicalAll_eq_mapM] at hkept
      obtain ⟨forms, hforms, rfl⟩ := map_eq_ok_iff.mp hkept
      exact ⟨forms, rfl, retainsItems_of_canonical items hwell hvalues hforms⟩
  | .object members, hwell, _, _, hread, hkept => by
      rcases decode_object_cases hread with
        ⟨entry, hrole, hentry, rfl⟩ | ⟨kind, edits, hrole, hedits, rfl⟩
      · exact .inr ⟨entry, hrole, hentry, hkept⟩
      · obtain ⟨body, hbody, rfl⟩ := map_eq_ok_iff.mp hkept
        have hrewrites : c.Rewrites kind members edits body := ⟨hwell.1, hedits, hbody⟩
        rw [Entity.kind_build]
        exact .inl ⟨kind, body, hrole, rfl, hrewrites.carries,
          retainsMembers_of_rewrites hrewrites members (fun _ => id) hwell.2⟩
  | .null, _, _, _, hread, hkept => by
      cases hread
      cases hkept
      rfl
  | .bool _, _, _, _, hread, hkept => by
      cases hread
      cases hkept
      rfl
  | .number _, _, _, _, hread, hkept => by
      cases hread
      cases hkept
      rfl
  | .string _, _, _, _, hread, hkept => by
      cases hread
      cases hkept
      rfl
termination_by structural value => value

theorem retainsItems_of_canonical :
    (items : List Json) → Json.ItemsWellFormed items → {values : List Decoded} →
      {forms : List Json} → items.mapM c.decode = .ok values →
      values.mapM c.canonical = .ok forms → c.RetainsItems items forms
  | [], _, _, _, hvalues, hforms => by
      cases hvalues
      cases hforms
      rfl
  | item :: rest, hwell, _, _, hvalues, hforms => by
      cases mapM_eq_ok_iff.mp hvalues with
      | cons hread hrest =>
        cases mapM_eq_ok_iff.mp hforms with
        | cons hkept hmore =>
          exact ⟨_, _, rfl, retains_of_canonical item hwell.1 hread hkept,
            retainsItems_of_canonical rest hwell.2 (mapM_eq_ok_iff.mpr hrest)
              (mapM_eq_ok_iff.mpr hmore)⟩
termination_by structural items => items

/-- Here the members are some of those of the object. -/
theorem retainsMembers_of_rewrites {kind : EntityKind} {all written : List (String × Json)}
    {edits : List (Edit kind.shape)} (h : c.Rewrites kind all edits written) :
    (members : List (String × Json)) → (∀ member ∈ members, member ∈ all) →
      Json.MembersWellFormed members → c.RetainsMembers kind.shape members written
  | [], _, _ => trivial
  | (key, value) :: rest, hmem, hwell => by
      obtain ⟨hmember, hothers⟩ := List.forall_mem_cons.mp hmem
      refine ⟨fun hkey hversion htruthy => ?_, fun hshape hplace htruthy => ?_,
        retainsMembers_of_rewrites h rest hothers hwell.2⟩
      · obtain ⟨kept, hform, hget⟩ := h.exists_kept hkey hmember htruthy
        rw [canonicalExtra, if_neg hversion] at hform
        cases hread : c.decode value with
        | error e =>
            rw [hread] at hform
            cases hform
        | ok d =>
            rw [hread] at hform
            exact ⟨kept, hget, retains_of_canonical value hwell.1 hread hform⟩
      · subst hplace
        cases kind with
        | dataset =>
            obtain ⟨items, forms, hread, hforms, hget⟩ := h.exists_locations hmember htruthy
            exact ⟨forms, hget, retainsLocations_of_read value hwell.1 htruthy hread hforms⟩
        | folder => cases hshape
        | group => cases hshape
        | location => cases hshape
termination_by structural members => members

theorem retainsLocations_of_read :
    (value : Json) → value.WellFormed → value.truthy = true → {locations : List Location} →
      {forms : List Json} → c.readLocations value = .ok locations →
      locations.mapM (fun location => (c.encodeRecord location).map Json.object) = .ok forms →
      c.RetainsLocations value forms
  | .array items, hwell, _, _, _, hread, hforms => by
      rw [readLocations, readLocationItems_eq_mapM] at hread
      exact retainsLocationItems_of_read items hwell hread hforms
  | .null, _, htruthy, _, _, _, _ => nomatch htruthy
  | .bool _, _, _, _, _, hread, _ => nomatch hread
  | .number _, _, _, _, _, hread, _ => nomatch hread
  | .string _, _, _, _, _, hread, _ => nomatch hread
  | .object _, _, _, _, _, hread, _ => nomatch hread
termination_by structural value => value

theorem retainsLocationItems_of_read :
    (items : List Json) → Json.ItemsWellFormed items → {locations : List Location} →
      {forms : List Json} → items.mapM c.readLocation = .ok locations →
      locations.mapM (fun location => (c.encodeRecord location).map Json.object) = .ok forms →
      c.RetainsLocationItems items forms
  | [], _, _, _, hread, hforms => by
      cases hread
      cases hforms
      rfl
  | .object members :: rest, hwell, _, _, hread, hforms => by
      cases mapM_eq_ok_iff.mp hread with
      | cons hlocation hrest =>
        cases mapM_eq_ok_iff.mp hforms with
        | cons hform hmore =>
          obtain ⟨_, -, hmembers⟩ := bind_eq_ok_iff.mp hlocation
          obtain ⟨edits, hedits, hbuilt⟩ := bind_eq_ok_iff.mp hmembers
          cases hbuilt
          obtain ⟨body, hbody, rfl⟩ := map_eq_ok_iff.mp hform
          have hrewrites : c.Rewrites .location members edits body :=
            ⟨hwell.1.1, hedits, hbody⟩
          exact ⟨body, _, rfl, hrewrites.carries,
            retainsMembers_of_rewrites hrewrites members (fun _ => id) hwell.1.2,
            retainsLocationItems_of_read rest hwell.2 (mapM_eq_ok_iff.mpr hrest)
              (mapM_eq_ok_iff.mpr hmore)⟩
  | .null :: _, _, _, _, hread, _ => nomatch mapM_eq_ok_iff.mp hread
  | .bool _ :: _, _, _, _, hread, _ => nomatch mapM_eq_ok_iff.mp hread
  | .number _ :: _, _, _, _, hread, _ => nomatch mapM_eq_ok_iff.mp hread
  | .string _ :: _, _, _, _, hread, _ => nomatch mapM_eq_ok_iff.mp hread
  | .array _ :: _, _, _, _, hread, _ => nomatch mapM_eq_ok_iff.mp hread
termination_by structural items => items

end

/-- An object that is read as an entry can be written again, and what is written keeps what the
object says, at every depth to which arrays, extra fields and locations lead. -/
theorem decode_retains (hcomplete : c.types.Complete) {members : List (String × Json)}
    (hwell : (Json.object members).WellFormed) {e : Entity}
    (hread : c.decode (.object members) = .ok (.entity e)) :
    ∃ body, c.encodeEntity e = .ok (.object ((Shape.tagKey, .string e.kind.tag) :: body)) ∧
      e.kind.shape.Carries members body ∧ c.RetainsMembers e.kind.shape members body := by
  obtain ⟨hfinite⟩ : (Decoded.entity e).IsFinite :=
    ((finiteReading hcomplete).decode (.object members)).result hread
  obtain ⟨written, hwritten⟩ := encodeEntity_succeeds hcomplete hfinite
  obtain ⟨body, hbody, rfl⟩ := map_eq_ok_iff.mp hwritten
  refine ⟨body, hwritten, ?_⟩
  rcases decode_object_cases hread with ⟨entry, -, -, hpair⟩ | ⟨kind, edits, -, hedits, hentity⟩
  · cases hpair
  · cases hentity
    have hrewrites : c.Rewrites kind members edits body := ⟨hwell.1, hedits, hbody⟩
    rw [Entity.kind_build]
    exact ⟨hrewrites.carries, retainsMembers_of_rewrites hrewrites members (fun _ => id) hwell.2⟩

/-- A dataset with an empty name, a location, and extra fields that hold a number, an entry without
a tag and a metadata entry. -/
theorem decode_retains_nested :
    let c : Codec := ⟨.standard, some .folder⟩
    let members : List (String × Json) := [("run", .ofInt64 7), (Shape.tagKey, .string "dataset"),
      ("name", .string ""), ("parts", .array [.object [("name", .string "a"), ("off", .null)],
        .object (tripleMembers "count" (.string "7") "integer")]),
      (Shape.locationsKey, .array [.object [("mirror", .bool true), ("site", .string "SLAC")]])]
    (Json.object members).WellFormed ∧
      ∃ e body, c.decode (.object members) = .ok (.entity e) ∧
        c.encodeEntity e = .ok (.object ((Shape.tagKey, .string e.kind.tag) :: body)) ∧
        e.kind.shape.Carries members body ∧ c.RetainsMembers e.kind.shape members body := by
  intro c members
  have hwell : (Json.object members).WellFormed := by
    simp [members, Json.WellFormed, Json.MembersWellFormed, Json.ItemsWellFormed, tripleMembers,
      Json.ofInt64, Shape.tagKey, Shape.locationsKey]
  have hread : c.decode (.object members) = .ok (.entity _) := rfl
  obtain ⟨body, hbody⟩ := decode_retains TypeTable.complete_standard hwell hread
  exact ⟨hwell, _, body, hread, hbody⟩

/-- An entry inside an object that is read as a metadata entry is dropped with the member that
holds it. -/
theorem not_forall_nested_carries :
    ¬∀ (c : Codec) (members written : List (String × Json)) (e : Entity), c.types.Complete →
      (Json.object members).WellFormed → c.decode (.object members) = .ok (.entity e) →
      c.encodeEntity e = .ok (.object written) →
      ∀ member ∈ members, member.1 ∉ e.kind.shape.reserved → ∀ nested ∈ member.2.objects,
        ∀ kind, taggedKind nested = .ok (some kind) →
          ∃ kept ∈ (Json.object written).objects, kind.shape.Carries nested kept := by
  intro h
  let nested : List (String × Json) := [(Shape.tagKey, .string "folder"), ("name", .string "q")]
  let triple : Json := .object (tripleMembers "a" (.ofInt64 1) "integer" ++
    [("more", .object nested)])
  let members : List (String × Json) := [(Shape.tagKey, .string "folder"), ("x", triple)]
  let written : List (String × Json) := [(Shape.tagKey, .string "folder"),
    ("x", .object (tripleMembers "a" (.ofInt64 1) "integer"))]
  have hwell : (Json.object members).WellFormed := by
    simp [members, triple, nested, Json.WellFormed, Json.MembersWellFormed, Json.ofInt64,
      Shape.tagKey, tripleMembers]
  have hread : (Codec.mk .standard none).decode (.object members) = .ok (.entity _) := rfl
  have hnested : nested ∈ triple.objects := by
    simp [triple, tripleMembers, Json.objects, Json.objectsOfMembers]
  obtain ⟨kept, hkept, hcarries⟩ := h _ members written _ TypeTable.complete_standard hwell hread
    rfl ("x", triple) (by simp [members]) (by decide) nested hnested .folder rfl
  have hname : "name" ∈ Entries.keys kept :=
    hcarries.kept ("name", .string "q") (by simp [nested]) (by decide) (by decide)
  have hnone : ∀ kept ∈ (Json.object written).objects, "name" ∉ Entries.keys kept := by decide
  exact hnone kept hkept hname

end Codec

end DataCatalog
