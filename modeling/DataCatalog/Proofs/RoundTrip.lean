import DataCatalog.Proofs.Rereading
import DataCatalog.Proofs.Sameness

/-!
# Which entries are read back as they were

Named fields and locations always are.  An entry comes back the same exactly when its extra fields,
and those of its locations, are the same as their canonical forms.  Without its tag an entry must
also not look like a metadata entry of a known type; if it does, it is never read as an entry.
-/

namespace DataCatalog

namespace Codec

variable {c : Codec} {s : Shape}

/-- Each extra field is the same as its canonical form. -/
def KeepsExtras (c : Codec) (entries : List (String × Json)) : Prop :=
  ∀ entry ∈ entries, ∃ value,
    c.canonicalExtra entry.1 entry.2 = .ok value ∧ value.same entry.2 = true

/-- Each extra field of the entry and of its locations is the same as its canonical form. -/
def Keeps (c : Codec) (e : Entity) : Prop :=
  c.KeepsExtras e.extraFields ∧ ∀ location ∈ e.locations, c.KeepsExtras location.extras.entries

/-! ## Records -/

theorem keys_of_canonicalExtras {entries canonical : List (String × Json)}
    (h : c.canonicalExtras entries = .ok canonical) :
    Entries.keys canonical = Entries.keys entries := by
  have hpairs := mapM_eq_ok_iff.mp h
  clear h
  induction hpairs with
  | nil => rfl
  | cons hhead _ ih =>
      obtain ⟨value, _, rfl⟩ := map_eq_ok_iff.mp hhead
      rw [Entries.keys_cons, Entries.keys_cons, ih]

theorem entries_putAll_of_keys {extras : Extras s} {entries : List (String × Json)}
    (hkeys : Entries.keys entries = Entries.keys extras.entries) :
    (Extras.empty.putAll entries : Extras s).entries =
      entries.filter fun entry => entry.2.truthy := by
  have hdistinct : (Entries.keys entries).Nodup := by
    rw [hkeys]
    exact extras.distinct
  have hallowed : ∀ key ∈ Entries.keys entries, key ∉ s.reserved := by
    rw [hkeys]
    exact extras.allowed
  exact Extras.entries_putAll hdistinct hallowed

/-- Extra fields in canonical form are the same as before exactly when each of them is: one that
has lost its information is missing, and the numbers of fields differ. -/
theorem same_canonicalExtras_iff {extras : Extras s} {canonical : List (String × Json)}
    (h : c.canonicalExtras extras.entries = .ok canonical) :
    (Extras.empty.putAll canonical : Extras s).toJson.same extras.toJson = true ↔
      c.KeepsExtras extras.entries := by
  have hlength : canonical.length = extras.entries.length :=
    (mapM_eq_ok_iff.mp h).length_eq.symm
  rw [Extras.toJson, Extras.toJson, Json.same_object_iff,
    entries_putAll_of_keys (keys_of_canonicalExtras h)]
  constructor
  · rintro ⟨hfiltered, hsame⟩ entry hentry
    obtain ⟨kept, hkept, hcanonical⟩ := exists_ok_of_mapM_eq_ok h hentry
    obtain ⟨value, hvalue, rfl⟩ := map_eq_ok_iff.mp hcanonical
    -- No field was dropped, for as many are left as there were.
    have hall : canonical.filter (fun entry => entry.2.truthy) = canonical := by
      apply List.filter_eq_self.mpr
      apply List.length_filter_eq_length_iff.mp
      rw [hfiltered, hlength]
    rw [hall] at hsame
    obtain ⟨old, hold, hvaluesame⟩ := hsame _ hkept
    rw [(Entries.get?_eq_some_iff extras.distinct).mpr hentry] at hold
    cases hold
    exact ⟨value, hvalue, hvaluesame⟩
  · intro hkeeps
    have hsame : ∀ kept ∈ canonical, ∃ old, (kept.1, old) ∈ extras.entries ∧
        kept.2.same old = true := by
      intro kept hkept
      obtain ⟨entry, hentry, hcanonical⟩ := exists_mem_of_mapM_eq_ok h hkept
      obtain ⟨value, hvalue, rfl⟩ := map_eq_ok_iff.mp hcanonical
      obtain ⟨value', hvalue', hvaluesame⟩ := hkeeps entry hentry
      rw [hvalue] at hvalue'
      cases hvalue'
      exact ⟨entry.2, hentry, hvaluesame⟩
    -- A canonical form that is the same carries information as the field did, so none is dropped.
    have hall : canonical.filter (fun entry => entry.2.truthy) = canonical := by
      apply List.filter_eq_self.mpr
      intro kept hkept
      obtain ⟨old, hold, hvaluesame⟩ := hsame kept hkept
      rw [Json.truthy_eq_of_same hvaluesame]
      exact extras.truthy _ hold
    rw [hall]
    refine ⟨hlength, fun kept hkept => ?_⟩
    obtain ⟨old, hold, hvaluesame⟩ := hsame kept hkept
    exact ⟨old, (Entries.get?_eq_some_iff extras.distinct).mpr hold, hvaluesame⟩

theorem sameField_self_of_encodeNamed {r : Record s} {fields : List Field}
    {members : List (String × Json)} (h : c.encodeNamed r fields = .ok members)
    {f : Field} (hf : f ∈ fields) : r.sameField r f = true := by
  cases hget : r.get? f with
  | none => simp [Record.sameField, Record.get?_eq_none_iff.mp hget]
  | some v =>
      obtain ⟨value, hvalue, -⟩ := exists_member_of_get? h hf hget
      obtain ⟨htruthy, hnamed⟩ := Record.get?_eq_some_iff.mp hget
      simp only [Record.sameField, hnamed]
      exact same_self_of_encodeValue hvalue

/-- The canonical form of a record differs from the record in its extra fields alone. -/
theorem same_canonicalRecord_iff {r : Record s} {named : List (String × Json)}
    (hnamed : c.encodeNamed r s.fields = .ok named) :
    (∃ q, c.canonicalRecord r = .ok q ∧ q.same r = true) ↔ c.KeepsExtras r.extras.entries := by
  have hfields : (s.fields.all (r.sameField r)) = true :=
    List.all_eq_true.mpr fun f hf => sameField_self_of_encodeNamed hnamed hf
  have hsame : ∀ canonical, c.canonicalExtras r.extras.entries = .ok canonical →
      ((r.withExtras canonical).same r = true ↔ c.KeepsExtras r.extras.entries) := by
    intro canonical hcanonical
    rw [← same_canonicalExtras_iff hcanonical, Record.same]
    change (s.fields.all (r.sameField r) && _) = true ↔ _
    rw [hfields, Bool.true_and]
    rfl
  constructor
  · rintro ⟨q, hq, hqsame⟩
    obtain ⟨canonical, hcanonical, rfl⟩ := map_eq_ok_iff.mp hq
    exact (hsame canonical hcanonical).mp hqsame
  · intro hkeeps
    obtain ⟨canonical, hcanonical⟩ : Succeeds (c.canonicalExtras r.extras.entries) := by
      refine Succeeds.mapM fun entry hentry => ?_
      obtain ⟨value, hvalue, _⟩ := hkeeps entry hentry
      exact Succeeds.map ⟨value, hvalue⟩ _
    refine ⟨r.withExtras canonical, ?_, (hsame canonical hcanonical).mpr hkeeps⟩
    rw [canonicalRecord, hcanonical, map_ok]

theorem encodeNamed_of_mem_locations {locations : List Location}
    {members : List (String × Json)} (h : c.encodeLocations locations = .ok members)
    {location : Location} (hmem : location ∈ locations) :
    ∃ named, c.encodeNamed location Shape.location.fields = .ok named := by
  rcases encodeLocations_eq_ok_iff.mp h with ⟨rfl, _⟩ | ⟨_, items, hitems, _⟩
  · cases hmem
  · obtain ⟨item, _, hitem⟩ := exists_ok_of_mapM_eq_ok hitems hmem
    obtain ⟨fields, hfields, _⟩ := map_eq_ok_iff.mp hitem
    obtain ⟨named, hnamed, _⟩ := encodeRecord_eq_ok_iff.mp hfields
    exact ⟨named, hnamed⟩

theorem same_canonicalDataset_iff {d : Dataset} {members : List (String × Json)}
    (h : c.encodeDataset d = .ok members) :
    (∃ e, c.canonicalDataset d = .ok e ∧ e.same d = true) ↔ c.Keeps (.dataset d) := by
  obtain ⟨named, hnamed, written, hwritten, _⟩ := encodeDataset_eq_ok_iff.mp h
  have hrecord := same_canonicalRecord_iff hnamed
  have hlocation : ∀ location ∈ d.locations,
      ((∃ q, c.canonicalRecord location = .ok q ∧ q.same location = true) ↔
        c.KeepsExtras location.extras.entries) := by
    intro location hmem
    obtain ⟨fields, hfields⟩ := encodeNamed_of_mem_locations hwritten hmem
    exact same_canonicalRecord_iff hfields
  constructor
  · rintro ⟨e, he, hsame⟩
    obtain ⟨items, hitems, q, hq, rfl⟩ :
        ∃ items, d.locations.mapM c.canonicalRecord = .ok items ∧
          ∃ q, c.canonicalRecord d.toRecord = .ok q ∧ { q with locations := items } = e := by
      simpa [canonicalDataset, bind_eq_ok_iff] using he
    rw [Dataset.same, Bool.and_assoc, Bool.and_eq_true,
      zip_all_iff_of_mapM_eq_ok hitems] at hsame
    refine ⟨hrecord.mp ⟨q, hq, hsame.1⟩, fun location hmem => ?_⟩
    exact (hlocation location hmem).mp (hsame.2 location hmem)
  · rintro ⟨hextras, hlocations⟩
    obtain ⟨q, hq, hqsame⟩ := hrecord.mpr hextras
    have heach : ∀ location ∈ d.locations,
        ∃ q, c.canonicalRecord location = .ok q ∧ q.same location = true :=
      fun location hmem => (hlocation location hmem).mpr (hlocations location hmem)
    obtain ⟨items, hitems⟩ : Succeeds (d.locations.mapM c.canonicalRecord) := by
      refine Succeeds.mapM fun location hmem => ?_
      obtain ⟨q, hq, _⟩ := heach location hmem
      exact ⟨q, hq⟩
    refine ⟨{ q with locations := items }, ?_, ?_⟩
    · rw [canonicalDataset, hitems, ok_bind, hq, ok_bind]
    · rw [Dataset.same, Bool.and_assoc, Bool.and_eq_true, zip_all_iff_of_mapM_eq_ok hitems]
      exact ⟨hqsame, heach⟩

/-! ## Entries -/

theorem keeps_iff_of_locations_eq_nil {e : Entity} (h : e.locations = []) :
    c.Keeps e ↔ c.KeepsExtras e.extraFields := by
  simp [Keeps, h]

theorem same_canonicalRecord_iff_of_encodeRecord {r : Record s} {members : List (String × Json)}
    (h : c.encodeRecord r = .ok members) :
    (∃ q, c.canonicalRecord r = .ok q ∧ q.same r = true) ↔ c.KeepsExtras r.extras.entries := by
  obtain ⟨named, hnamed, _⟩ := encodeRecord_eq_ok_iff.mp h
  exact same_canonicalRecord_iff hnamed

/-- The canonical form of an entry is the same entry exactly when its extra fields are kept. -/
theorem same_canonicalEntity_iff {e : Entity} {members : List (String × Json)}
    (h : c.encodeBody e = .ok members) :
    (∃ d, c.canonicalEntity e = .ok d ∧ d.same e = true) ↔ c.Keeps e := by
  cases e with
  | dataset d =>
      rw [canonicalEntity, exists_map_eq_ok_iff]
      exact same_canonicalDataset_iff h
  | folder r =>
      rw [canonicalEntity, exists_map_eq_ok_iff, keeps_iff_of_locations_eq_nil rfl]
      exact same_canonicalRecord_iff_of_encodeRecord h
  | group r =>
      rw [canonicalEntity, exists_map_eq_ok_iff, keeps_iff_of_locations_eq_nil rfl]
      exact same_canonicalRecord_iff_of_encodeRecord h
  | location r =>
      rw [canonicalEntity, exists_map_eq_ok_iff, keeps_iff_of_locations_eq_nil rfl]
      exact same_canonicalRecord_iff_of_encodeRecord h

/-- A written entry is read back as the same entry exactly when its extra fields, and those of its
locations, are the same as their canonical forms. -/
theorem decode_tagged_same_iff (hcoherent : c.types.Coherent) {e : Entity} {written : Json}
    (h : c.encodeEntity e = .ok written) :
    (∃ d, c.decode written = .ok (.entity d) ∧ d.same e = true) ↔ c.Keeps e := by
  obtain ⟨members, hmembers, _⟩ := map_eq_ok_iff.mp h
  rw [← same_canonicalEntity_iff hmembers, decode_of_encodeEntity hcoherent h]
  simp [map_eq_ok_iff]

/-- Only the order of members changes in the first entry, whose extra field is a folder; the second
one has an extra field without a tag, which cannot be read. -/
theorem decode_tagged_same_nested :
    let c : Codec := ⟨.standard, none⟩
    let site : Location := .ofEdits [.set .site (by decide) "SLAC", .extra "rank" (.ofInt64 2)]
    let run : Json := .object [("name", .string "run"), ("_type", .string "folder")]
    let kept : Entity := .dataset (.ofEdits [.set .name (by decide) "muons",
      .set .pk (by decide) (7 : Int64), .extra "parent" run, .addLocation rfl site])
    let lost : Entity := .folder (.ofEdits [.extra "note" (.object [("x", .ofInt64 1)])])
    (∃ written, c.encodeEntity kept = .ok written ∧
      ∃ d, c.decode written = .ok (.entity d) ∧ d.same kept = true) ∧
    ∃ written, c.encodeEntity lost = .ok written ∧
      ¬∃ d, c.decode written = .ok (.entity d) ∧ d.same lost = true := by
  intro c site run kept lost
  constructor
  · have hkeeps : c.Keeps kept := by
      constructor
      · intro entry hentry
        rw [List.mem_singleton.mp hentry]
        exact ⟨_, rfl, rfl⟩
      · intro location hlocation
        rw [List.mem_singleton.mp hlocation]
        intro entry hentry
        rw [List.mem_singleton.mp hentry]
        exact ⟨_, rfl, rfl⟩
    have hwritten : c.encodeEntity kept = .ok _ := rfl
    exact ⟨_, hwritten, (decode_tagged_same_iff TypeTable.coherent_standard hwritten).mpr hkeeps⟩
  · have hwritten : c.encodeEntity lost = .ok _ := rfl
    refine ⟨_, hwritten, fun hsame => ?_⟩
    have hkeeps := (decode_tagged_same_iff TypeTable.coherent_standard hwritten).mp hsame
    obtain ⟨value, hvalue, _⟩ := hkeeps.1 _ List.mem_cons_self
    cases hvalue

/-! ## Entries without their tag -/

/-- The extra fields are a key, a value and a type that the table knows. -/
def ShowsTriple (c : Codec) (entries : List (String × Json)) : Prop :=
  (∃ key, ("key", key) ∈ entries) ∧ (∃ value, ("value", value) ∈ entries) ∧
    ∃ tag kind, ("type", .string tag) ∈ entries ∧ c.types.kindFor? tag = some kind

theorem not_mem_ownKeys_of_mem_triple (s : Shape) {key : String}
    (h : key ∈ ["key", "value", "type"]) : key ∉ s.ownKeys := by
  revert key
  cases s <;> decide

theorem knowsType_iff {members : List (String × Json)} :
    c.knowsType members = true ↔
      ∃ tag kind, Entries.get? "type" members = some (.string tag) ∧
        c.types.kindFor? tag = some kind := by
  unfold knowsType
  split
  · next tag htag =>
      rw [htag, Option.isSome_iff_exists]
      simp
  · next hother =>
      simp only [Bool.false_eq_true, false_iff]
      rintro ⟨tag, _, htag, _⟩
      exact hother tag htag

theorem isTriple_and_knowsType_iff {entries : List (String × Json)}
    (hdistinct : (Entries.keys entries).Nodup) :
    (isTriple entries && c.knowsType entries) = true ↔ c.ShowsTriple entries := by
  have htriple : isTriple entries = true ↔ ∀ key ∈ ["key", "value", "type"],
      ∃ value, (key, value) ∈ entries := by
    simp only [isTriple, List.all_eq_true, Option.isSome_iff_exists,
      Entries.get?_eq_some_iff hdistinct]
  rw [Bool.and_eq_true, htriple, knowsType_iff, ShowsTriple]
  simp only [Entries.get?_eq_some_iff hdistinct, List.forall_mem_cons, List.not_mem_nil,
    false_implies, implies_true, and_true]
  constructor
  · rintro ⟨⟨hkey, hvalue, _⟩, tag, kind, htag, hkind⟩
    exact ⟨hkey, hvalue, tag, kind, htag, hkind⟩
  · rintro ⟨hkey, hvalue, tag, kind, htag, hkind⟩
    exact ⟨⟨hkey, hvalue, _, htag⟩, tag, kind, htag, hkind⟩

/-- Without its tag, a written entry looks like a metadata entry of a known type exactly when its
extra fields do. -/
theorem isTriple_and_knowsType_of_encodeBody {e : Entity} {members : List (String × Json)}
    (h : c.encodeBody e = .ok members) :
    (isTriple members && c.knowsType members) = true ↔ c.ShowsTriple e.extraFields := by
  have hget : ∀ key ∈ ["key", "value", "type"],
      Entries.get? key members = Entries.get? key e.extraFields :=
    fun key hkey => get?_of_encodeBody h (not_mem_ownKeys_of_mem_triple _ hkey)
  have htriple : isTriple members = isTriple e.extraFields := by
    unfold isTriple
    simp only [List.all_cons, List.all_nil, hget "key" (by decide), hget "value" (by decide),
      hget "type" (by decide)]
  have hknown : c.knowsType members = c.knowsType e.extraFields := by
    unfold knowsType
    rw [hget "type" (by decide)]
  rw [htriple, hknown, isTriple_and_knowsType_iff e.extraFields_distinct]

theorem role_of_encodeBody {e : Entity} {members : List (String × Json)}
    (hdefault : c.defaultKind = some e.kind) (h : c.encodeBody e = .ok members) :
    c.role members = if isTriple members && c.knowsType members then .ok .triple
      else .ok (.entity e.kind) := by
  rw [role, taggedKind_of_encodeBody h, hdefault]

theorem decode_ne_entity_of_showsTriple {e : Entity} {members : List (String × Json)}
    (hdefault : c.defaultKind = some e.kind) (h : c.encodeBody e = .ok members)
    (htriple : c.ShowsTriple e.extraFields) (d : Entity) :
    c.decode (.object members) ≠ .ok (.entity d) := by
  have hrole : c.role members = .ok .triple := by
    rw [role_of_encodeBody hdefault h,
      if_pos ((isTriple_and_knowsType_of_encodeBody h).mpr htriple)]
  rw [decode_object_of_triple hrole]
  intro hentity
  obtain ⟨_, _, hpair⟩ := map_eq_ok_iff.mp hentity
  cases hpair

theorem decode_of_encodeBody (hcoherent : c.types.Coherent) {e : Entity}
    {members : List (String × Json)} (hdefault : c.defaultKind = some e.kind)
    (h : c.encodeBody e = .ok members) (htriple : ¬c.ShowsTriple e.extraFields) :
    c.decode (.object members) = (c.canonicalEntity e).map .entity := by
  have hrole : c.role members = .ok (.entity e.kind) := by
    rw [role_of_encodeBody hdefault h,
      if_neg (mt (isTriple_and_knowsType_of_encodeBody h).mp htriple)]
  rw [decode_object_of_entity hrole, ← readMembers_of_encodeBody hcoherent h, map_map]

/-- With its own kind as the default kind, an entry that is written without its tag is read back as
the same entry exactly when its extra fields are the same as their canonical forms and do not look
like a metadata entry of a known type.  If they do look like one, no entry is read at all. -/
theorem decode_bare_same_iff (hcoherent : c.types.Coherent) {e : Entity}
    {members : List (String × Json)} (hdefault : c.defaultKind = some e.kind)
    (h : c.encodeBody e = .ok members) :
    ((∃ d, c.decode (.object members) = .ok (.entity d) ∧ d.same e = true) ↔
        c.Keeps e ∧ ¬c.ShowsTriple e.extraFields) ∧
      (c.ShowsTriple e.extraFields → ∀ d, c.decode (.object members) ≠ .ok (.entity d)) := by
  refine ⟨?_, decode_ne_entity_of_showsTriple hdefault h⟩
  by_cases htriple : c.ShowsTriple e.extraFields
  · constructor
    · rintro ⟨d, hread, _⟩
      exact absurd hread (decode_ne_entity_of_showsTriple hdefault h htriple d)
    · rintro ⟨_, hother⟩
      exact absurd htriple hother
  · rw [← same_canonicalEntity_iff h, decode_of_encodeBody hcoherent hdefault h htriple]
    simp [map_eq_ok_iff, htriple]

/-- The same three extra fields, once with a type that the table does not know and once with one
that it knows. -/
theorem decode_bare_same_counter :
    let c : Codec := ⟨.standard, some .folder⟩
    let counter (tag : String) : Entity := .folder (.ofEdits [.set .name (by decide) "counter",
      .extra "key" (.string "events"), .extra "value" (.ofInt64 12), .extra "type" (.string tag)])
    (∃ members, c.encodeBody (counter "clock") = .ok members ∧
      ∃ d, c.decode (.object members) = .ok (.entity d) ∧ d.same (counter "clock") = true) ∧
    ∃ members, c.encodeBody (counter "integer") = .ok members ∧
      ∀ d, c.decode (.object members) ≠ .ok (.entity d) := by
  intro c counter
  constructor
  · have hkeeps : c.Keeps (counter "clock") := by
      constructor
      · have hfields : (counter "clock").extraFields = [("key", .string "events"),
            ("value", .ofInt64 12), ("type", .string "clock")] := rfl
        rw [hfields]
        intro entry hentry
        simp only [List.mem_cons, List.not_mem_nil, or_false] at hentry
        rcases hentry with rfl | rfl | rfl <;> exact ⟨_, rfl, rfl⟩
      · intro location hlocation
        cases hlocation
    have hother : ¬c.ShowsTriple (counter "clock").extraFields := by
      rw [← isTriple_and_knowsType_iff (counter "clock").extraFields_distinct]
      decide
    have hwritten : c.encodeBody (counter "clock") = .ok _ := rfl
    exact ⟨_, hwritten,
      (decode_bare_same_iff TypeTable.coherent_standard rfl hwritten).1.mpr ⟨hkeeps, hother⟩⟩
  · have htriple : c.ShowsTriple (counter "integer").extraFields := by
      rw [← isTriple_and_knowsType_iff (counter "integer").extraFields_distinct]
      rfl
    have hwritten : c.encodeBody (counter "integer") = .ok _ := rfl
    exact ⟨_, hwritten,
      (decode_bare_same_iff TypeTable.coherent_standard rfl hwritten).2 htriple⟩

end Codec

end DataCatalog
