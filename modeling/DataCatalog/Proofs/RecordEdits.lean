import DataCatalog.Proofs.Entries
import DataCatalog.Record.Entity

/-!
# Records as the edits that build them

Two directions are proved.  What every edit satisfies, the record that they build satisfies: each
step keeps it, and so does the whole run.  Conversely the present named fields of a record, set
anew in the order of its shape, together with its extra fields build it again; with other extra
fields in their place they build the record that differs in these alone.
-/

namespace DataCatalog

variable {s : Shape}

/-! ## What all edits satisfy, the record satisfies -/

/-- A condition on the values of named fields and one on extra fields. -/
structure FieldRule where
  named : (f : Field) → f.Value → Prop
  extra : String → Json → Prop

structure Record.Obeys (rule : FieldRule) (r : Record s) : Prop where
  named : ∀ f value, r.get? f = some value → rule.named f value
  extras : ∀ entry ∈ r.extras.entries, rule.extra entry.1 entry.2

structure Dataset.Obeys (rule : FieldRule) (d : Dataset) : Prop where
  record : d.toRecord.Obeys rule
  locations : ∀ location ∈ d.locations, location.Obeys rule

def Entity.Obeys (rule : FieldRule) : Entity → Prop
  | .dataset d => d.Obeys rule
  | .folder r => r.Obeys rule
  | .group r => r.Obeys rule
  | .location r => r.Obeys rule

/-- What the edit brings into a record obeys the rule. -/
def Edit.Obeys (rule : FieldRule) : Edit s → Prop
  | .set f _ value => rule.named f value
  | .extra key value => rule.extra key value
  | .locations _ items => ∀ location ∈ items, location.Obeys rule
  | .addLocation _ item => item.Obeys rule

/-- What the edit brings into the fields of the record itself obeys the rule. -/
def Edit.Suits (rule : FieldRule) : Edit s → Prop
  | .set f _ value => rule.named f value
  | .extra key value => rule.extra key value
  | _ => True

/-- The record is the result of edits that all satisfy `p`. -/
def Record.BuiltBy (p : Edit s → Prop) (r : Record s) : Prop :=
  ∃ edits, r = .ofEdits edits ∧ ∀ e ∈ edits, p e

theorem Record.get?_eq_some_iff {r : Record s} {f : Field} {value : f.Value} :
    r.get? f = some value ↔ ∃ h, r.named f = some ⟨value, h⟩ := by
  constructor
  · intro h
    obtain ⟨kept, hnamed, rfl⟩ := Option.map_eq_some_iff.mp h
    exact ⟨kept.property, hnamed⟩
  · rintro ⟨h, hnamed⟩
    exact Option.map_eq_some_iff.mpr ⟨⟨value, h⟩, hnamed, rfl⟩

theorem Record.get?_eq_none_iff {r : Record s} {f : Field} :
    r.get? f = none ↔ r.named f = none :=
  Option.map_eq_none_iff

theorem Field.eq_of_keep_eq_some {f : Field} {value : f.Value} {kept : f.Kept}
    (h : f.keep value = some kept) : kept.val = value := by
  unfold Field.keep at h
  split at h
  · cases h
    rfl
  · cases h

/-- A named field has the value that was set, or the one that it had. -/
theorem Record.get?_set {r : Record s} {f g : Field} {v : f.Value} (has : f ∈ s.fields)
    {value : g.Value} (h : (r.set f v has).get? g = some value) :
    (∃ heq : f = g, heq ▸ v = value) ∨ r.get? g = some value := by
  by_cases hfield : f = g
  · subst hfield
    obtain ⟨htruthy, hnamed⟩ := get?_eq_some_iff.mp h
    rw [named_set_self] at hnamed
    exact .inl ⟨rfl, (Field.eq_of_keep_eq_some hnamed).symm⟩
  · right
    rw [get?_eq_some_iff] at h ⊢
    rwa [named_set_of_ne r hfield] at h

theorem Extras.mem_of_mem_put {extras : Extras s} {key : String} {value : Json}
    {entry : String × Json} (h : entry ∈ (extras.put key value).entries) :
    entry = (key, value) ∨ entry ∈ extras.entries := by
  unfold Extras.put at h
  split at h
  · exact Entries.mem_of_mem_put h
  · exact .inr h

variable {rule : FieldRule}

theorem Record.obeys_empty : (Record.empty : Record s).Obeys rule where
  named f value h := by cases h
  extras entry h := by cases h

theorem Edit.Obeys.suits {e : Edit s} (h : e.Obeys rule) : e.Suits rule := by
  cases e with
  | set f has value => exact h
  | extra key value => exact h
  | locations dataset items => trivial
  | addLocation dataset item => trivial

theorem Record.Obeys.edit {r : Record s} {e : Edit s} (hr : r.Obeys rule) (he : e.Suits rule) :
    (r.edit e).Obeys rule := by
  cases e with
  | set f has v =>
      refine ⟨fun g value hget => ?_, hr.extras⟩
      rcases Record.get?_set has hget with ⟨rfl, rfl⟩ | hold
      · exact he
      · exact hr.named g value hold
  | extra key value =>
      refine ⟨hr.named, fun entry hentry => ?_⟩
      rcases Extras.mem_of_mem_put hentry with rfl | hold
      · exact he
      · exact hr.extras entry hold
  | locations dataset items => exact hr
  | addLocation dataset item => exact hr

theorem Record.Obeys.foldl_edit {r : Record s} {edits : List (Edit s)} (hr : r.Obeys rule)
    (h : ∀ e ∈ edits, e.Suits rule) : (edits.foldl Record.edit r).Obeys rule := by
  induction edits generalizing r with
  | nil => exact hr
  | cons e rest ih =>
      obtain ⟨he, hrest⟩ := List.forall_mem_cons.mp h
      exact ih (hr.edit he) hrest

theorem Record.obeys_ofEdits_of_suits {edits : List (Edit s)} (h : ∀ e ∈ edits, e.Suits rule) :
    (Record.ofEdits edits).Obeys rule :=
  Record.obeys_empty.foldl_edit h

/-- A record obeys a rule when the edits do that build it. -/
theorem Record.obeys_ofEdits {edits : List (Edit s)} (h : ∀ e ∈ edits, e.Obeys rule) :
    (Record.ofEdits edits).Obeys rule :=
  Record.obeys_ofEdits_of_suits fun e he => (h e he).suits

theorem Dataset.Obeys.edit {d : Dataset} {e : Edit .dataset} (hd : d.Obeys rule)
    (he : e.Obeys rule) : (d.edit e).Obeys rule where
  record := hd.record.edit he.suits
  locations := by
    cases e with
    | locations dataset items => exact he
    | addLocation dataset item =>
        exact List.forall_mem_append.mpr ⟨hd.locations, List.forall_mem_singleton.mpr he⟩
    | set f has v => exact hd.locations
    | extra key value => exact hd.locations

theorem Dataset.Obeys.foldl_edit {d : Dataset} {edits : List (Edit .dataset)}
    (hd : d.Obeys rule) (h : ∀ e ∈ edits, e.Obeys rule) :
    (edits.foldl Dataset.edit d).Obeys rule := by
  induction edits generalizing d with
  | nil => exact hd
  | cons e rest ih =>
      obtain ⟨he, hrest⟩ := List.forall_mem_cons.mp h
      exact ih (hd.edit he) hrest

/-- A dataset and its locations obey a rule when the edits do that build it. -/
theorem Dataset.obeys_ofEdits {edits : List (Edit .dataset)} (h : ∀ e ∈ edits, e.Obeys rule) :
    (Dataset.ofEdits edits).Obeys rule := by
  have hempty : Dataset.empty.Obeys rule := ⟨Record.obeys_empty, fun _ hmem => nomatch hmem⟩
  exact hempty.foldl_edit h

/-! ## Building a record again -/

/-- Sets the named fields that are present to the values that they have. -/
def Record.namedEdits (r : Record s) (fields : List { f : Field // f ∈ s.fields }) :
    List (Edit s) :=
  fields.flatMap fun f => (r.get? f.val).toList.map (Edit.set f.val f.property)

def Edit.extras (entries : List (String × Json)) : List (Edit s) :=
  entries.map fun entry => .extra entry.1 entry.2

/-- The extra fields that entries leave behind when they are set one after the other. -/
def Extras.putAll (extras : Extras s) (entries : List (String × Json)) : Extras s :=
  entries.foldl (fun extras entry => extras.put entry.1 entry.2) extras

/-- The record with other extra fields. -/
def Record.withExtras (r : Record s) (entries : List (String × Json)) : Record s :=
  { r with extras := Extras.empty.putAll entries }

theorem Field.keep_of_get? {r : Record s} {f : Field} {value : f.Value}
    (h : r.get? f = some value) : f.keep value = r.named f := by
  obtain ⟨htruthy, hnamed⟩ := Record.get?_eq_some_iff.mp h
  rw [hnamed, Field.keep_of_truthy htruthy]

theorem Record.named_foldl_namedEdits (r q : Record s)
    (fields : List { f : Field // f ∈ s.fields }) (g : Field) :
    ((r.namedEdits fields).foldl Record.edit q).named g =
      if g ∈ fields.map Subtype.val then (r.named g).or (q.named g) else q.named g := by
  induction fields generalizing q with
  | nil => simp [namedEdits]
  | cons f rest ih =>
      obtain ⟨f, has⟩ := f
      cases hget : r.get? f with
      | none =>
          have hnamed : r.named f = none := get?_eq_none_iff.mp hget
          have hedits : r.namedEdits (⟨f, has⟩ :: rest) = r.namedEdits rest := by
            simp [namedEdits, hget]
          rw [hedits, ih q]
          by_cases hg : g = f
          · subst hg
            simp [hnamed]
          · simp [hg]
      | some value =>
          have hkeep : f.keep value = r.named f := Field.keep_of_get? hget
          obtain ⟨htruthy, hnamed⟩ := get?_eq_some_iff.mp hget
          have hedits : r.namedEdits (⟨f, has⟩ :: rest) =
              .set f has value :: r.namedEdits rest := by
            simp [namedEdits, hget]
          rw [hedits, List.foldl_cons, ih]
          by_cases hg : g = f
          · subst hg
            have hor : (r.named g).or (q.named g) = r.named g := by
              rw [hnamed]
              rfl
            simp [edit, hkeep, hor]
          · simp [edit, hg, named_set_of_ne q (Ne.symm hg)]

theorem Record.extras_foldl_namedEdits (r q : Record s)
    (fields : List { f : Field // f ∈ s.fields }) :
    ((r.namedEdits fields).foldl Record.edit q).extras = q.extras := by
  induction fields generalizing q with
  | nil => rfl
  | cons f rest ih =>
      have hedits : r.namedEdits (f :: rest) =
          (r.get? f.val).toList.map (Edit.set f.val f.property) ++ r.namedEdits rest := by
        simp [namedEdits]
      rw [hedits, List.foldl_append, ih]
      cases r.get? f.val <;> rfl

theorem Record.foldl_edit_extras (q : Record s) (entries : List (String × Json)) :
    (Edit.extras entries).foldl Record.edit q =
      { q with extras := q.extras.putAll entries } := by
  induction entries generalizing q with
  | nil => rfl
  | cons entry rest ih => exact ih (q.withExtra entry.1 entry.2)

/-- The named fields of a record and other extra fields build the record with these extra
fields. -/
theorem Record.ofEdits_namedEdits_append (r : Record s) (entries : List (String × Json)) :
    Record.ofEdits (r.namedEdits s.fields.attach ++ Edit.extras entries) =
      r.withExtras entries := by
  unfold ofEdits
  rw [List.foldl_append, foldl_edit_extras]
  apply ext_fields
  · intro f hf
    change ((r.namedEdits s.fields.attach).foldl edit empty).named f = r.named f
    rw [named_foldl_namedEdits, List.attach_map_subtype_val, if_pos hf]
    exact Option.or_none
  · change Extras.putAll _ entries = Extras.empty.putAll entries
    rw [extras_foldl_namedEdits]
    rfl

/-- The edits that give a dataset its locations; there is none for no locations. -/
def Edit.placing (items : List Location) : List (Edit .dataset) :=
  if items = [] then [] else [.locations rfl items]

theorem Dataset.ext_parts {d e : Dataset} (hrecord : d.toRecord = e.toRecord)
    (hlocations : d.locations = e.locations) : d = e := by
  cases d
  cases e
  simp_all

theorem Dataset.locations_foldl_edit {d : Dataset} {edits : List (Edit .dataset)}
    (h : ∀ e ∈ edits, ∀ d : Dataset, (d.edit e).locations = d.locations) :
    (edits.foldl edit d).locations = d.locations := by
  induction edits generalizing d with
  | nil => rfl
  | cons e rest ih =>
      rw [List.foldl_cons, ih fun e' he' => h e' (List.mem_cons_of_mem e he')]
      exact h e List.mem_cons_self d

theorem Record.locations_edit_of_mem_namedEdits {r : Record .dataset}
    {fields : List { f : Field // f ∈ Shape.dataset.fields }} {e : Edit .dataset}
    (h : e ∈ r.namedEdits fields) (d : Dataset) : (d.edit e).locations = d.locations := by
  obtain ⟨f, _, he⟩ := List.mem_flatMap.mp h
  obtain ⟨value, _, rfl⟩ := List.mem_map.mp he
  rfl

theorem Edit.locations_edit_of_mem_extras {entries : List (String × Json)} {e : Edit .dataset}
    (h : e ∈ Edit.extras entries) (d : Dataset) : (d.edit e).locations = d.locations := by
  obtain ⟨entry, _, rfl⟩ := List.mem_map.mp h
  rfl

theorem Edit.foldl_edit_placing (r : Record .dataset) (items : List Location) :
    (Edit.placing items).foldl Record.edit r = r := by
  unfold placing
  split <;> rfl

theorem Edit.locations_foldl_placing {d : Dataset} (h : d.locations = [])
    (items : List Location) : ((Edit.placing items).foldl Dataset.edit d).locations = items := by
  unfold placing
  split
  · next hitems => rw [hitems, List.foldl_nil, h]
  · rfl

theorem Dataset.toRecord_ofEdits (edits : List (Edit .dataset)) :
    (Dataset.ofEdits edits).toRecord = Record.ofEdits edits :=
  Dataset.toRecord_foldl_edit Dataset.empty edits

/-- The named fields of a dataset, locations and extra fields build the dataset that has these. -/
theorem Dataset.ofEdits_namedEdits_append (r : Record .dataset) (items : List Location)
    (entries : List (String × Json)) :
    Dataset.ofEdits (r.namedEdits Shape.dataset.fields.attach ++
        (Edit.placing items ++ Edit.extras entries)) =
      { r.withExtras entries with locations := items } := by
  apply ext_parts
  · rw [toRecord_ofEdits, ← Record.ofEdits_namedEdits_append]
    simp only [Record.ofEdits, List.foldl_append, Edit.foldl_edit_placing]
  · unfold ofEdits
    rw [List.foldl_append, List.foldl_append,
      locations_foldl_edit fun e he => Edit.locations_edit_of_mem_extras he]
    apply Edit.locations_foldl_placing
    exact locations_foldl_edit fun e he => Record.locations_edit_of_mem_namedEdits he

/-! ## Edits that change nothing -/

theorem Record.edit_extra_of_mem_reserved {key : String} (h : key ∈ s.reserved) (r : Record s)
    (value : Json) : r.edit (.extra key value) = r := by
  have hput : r.extras.put key value = r.extras := dif_neg fun hallowed => hallowed.1 h
  change { r with extras := r.extras.put key value } = r
  rw [hput]

theorem Dataset.edit_extra_of_mem_reserved {key : String} (h : key ∈ Shape.dataset.reserved)
    (d : Dataset) (value : Json) : d.edit (.extra key value) = d :=
  congrArg (Dataset.mk · d.locations) (Record.edit_extra_of_mem_reserved h d.toRecord value)

theorem Record.ofEdits_extra_of_mem_reserved {key : String} (h : key ∈ s.reserved)
    (value : Json) (edits : List (Edit s)) :
    Record.ofEdits (.extra key value :: edits) = Record.ofEdits edits := by
  unfold ofEdits
  rw [List.foldl_cons, edit_extra_of_mem_reserved h]

theorem Dataset.ofEdits_extra_of_mem_reserved {key : String}
    (h : key ∈ Shape.dataset.reserved) (value : Json) (edits : List (Edit .dataset)) :
    Dataset.ofEdits (.extra key value :: edits) = Dataset.ofEdits edits := by
  unfold ofEdits
  rw [List.foldl_cons, edit_extra_of_mem_reserved h]

/-! ## Edits of other fields -/

/-- The edit does not set the field. -/
def Edit.Spares (f : Field) : Edit s → Prop
  | .set g _ _ => g ≠ f
  | _ => True

def Dataset.set (d : Dataset) (f : Field) (value : f.Value)
    (has : f ∈ Shape.dataset.fields) : Dataset :=
  { d with toRecord := d.toRecord.set f value has }

theorem Record.set_set_comm (r : Record s) {f g : Field} (h : g ≠ f) (v : f.Value) (w : g.Value)
    (hf : f ∈ s.fields) (hg : g ∈ s.fields) :
    (r.set f v hf).set g w hg = (r.set g w hg).set f v hf := by
  apply ext_fields
  · intro q _
    by_cases hqg : g = q
    · subst hqg
      rw [named_set_self, named_set_of_ne _ (Ne.symm h), named_set_self]
    · rw [named_set_of_ne _ hqg]
      by_cases hqf : f = q
      · subst hqf
        rw [named_set_self, named_set_self]
      · rw [named_set_of_ne _ hqf, named_set_of_ne _ hqf, named_set_of_ne _ hqg]
  · rfl

/-- Setting a field commutes with an edit that spares it. -/
theorem Record.edit_set {r : Record s} {f : Field} {e : Edit s} (h : e.Spares f) (v : f.Value)
    (has : f ∈ s.fields) : (r.set f v has).edit e = (r.edit e).set f v has := by
  cases e with
  | set g hg w => exact r.set_set_comm h v w has hg
  | extra key value => rfl
  | locations dataset items => rfl
  | addLocation dataset item => rfl

theorem Record.foldl_edit_set {r : Record s} {f : Field} {edits : List (Edit s)}
    (h : ∀ e ∈ edits, e.Spares f) (v : f.Value) (has : f ∈ s.fields) :
    edits.foldl edit (r.set f v has) = (edits.foldl edit r).set f v has := by
  induction edits generalizing r with
  | nil => rfl
  | cons e rest ih =>
      obtain ⟨he, hrest⟩ := List.forall_mem_cons.mp h
      rw [List.foldl_cons, edit_set he, ih hrest, List.foldl_cons]

theorem Dataset.foldl_edit_set {d : Dataset} {f : Field} {edits : List (Edit .dataset)}
    (h : ∀ e ∈ edits, e.Spares f) (v : f.Value) (has : f ∈ Shape.dataset.fields) :
    edits.foldl edit (d.set f v has) = (edits.foldl edit d).set f v has := by
  induction edits generalizing d with
  | nil => rfl
  | cons e rest ih =>
      obtain ⟨he, hrest⟩ := List.forall_mem_cons.mp h
      have hstep : (d.set f v has).edit e = (d.edit e).set f v has :=
        ext_parts (Record.edit_set he v has) rfl
      rw [List.foldl_cons, hstep, ih hrest, List.foldl_cons]

theorem Record.named_foldl_edit {r : Record s} {f : Field} {edits : List (Edit s)}
    (h : ∀ e ∈ edits, e.Spares f) : (edits.foldl edit r).named f = r.named f := by
  induction edits generalizing r with
  | nil => rfl
  | cons e rest ih =>
      obtain ⟨he, hrest⟩ := List.forall_mem_cons.mp h
      rw [List.foldl_cons, ih hrest]
      cases e with
      | set g hg w => exact named_set_of_ne r he w hg
      | extra key value => rfl
      | locations dataset items => rfl
      | addLocation dataset item => rfl

/-- The edits that a value of a named field makes. -/
def Edit.setting (f : Field) (has : f ∈ s.fields) (v : f.Value) : List (Edit s) :=
  if f.type.truthy v = true then [.set f has v] else []

theorem Edit.map_set_toList {f : Field} (has : f ∈ s.fields) (v : f.Value) :
    (if f.type.truthy v = true then some v else none).toList.map (Edit.set f has) =
      Edit.setting f has v := by
  unfold setting
  split <;> rfl

theorem Record.set_of_falsy {r : Record s} {f : Field} {v : f.Value} (has : f ∈ s.fields)
    (habsent : r.named f = none) (hfalsy : f.type.truthy v = false) : r.set f v has = r := by
  apply ext_fields
  · intro g _
    by_cases hg : f = g
    · subst hg
      rw [named_set_self, Field.keep_of_falsy hfalsy, habsent]
    · exact named_set_of_ne r hg v has
  · rfl

theorem Record.foldl_setting {r : Record s} {f : Field} (has : f ∈ s.fields)
    (habsent : r.named f = none) (v : f.Value) :
    (Edit.setting f has v).foldl edit r = r.set f v has := by
  unfold Edit.setting
  split
  · rfl
  · next hfalsy =>
      rw [Bool.not_eq_true] at hfalsy
      rw [List.foldl_nil, set_of_falsy has habsent hfalsy]

theorem Dataset.foldl_setting {d : Dataset} {f : Field} (has : f ∈ Shape.dataset.fields)
    (habsent : d.named f = none) (v : f.Value) :
    (Edit.setting f has v).foldl edit d = d.set f v has := by
  apply ext_parts
  · rw [toRecord_foldl_edit]
    exact Record.foldl_setting has habsent v
  · unfold Edit.setting
    split <;> rfl

/-- A field that no other edit sets has the value that is set, wherever this is done. -/
theorem Record.ofEdits_setting {f : Field} {left right : List (Edit s)}
    (hleft : ∀ e ∈ left, e.Spares f) (hright : ∀ e ∈ right, e.Spares f)
    (has : f ∈ s.fields) (v : f.Value) :
    Record.ofEdits (left ++ (Edit.setting f has v ++ right)) =
      (Record.ofEdits (left ++ right)).set f v has := by
  have habsent : (left.foldl edit empty).named f = none := named_foldl_edit hleft
  calc
    Record.ofEdits (left ++ (Edit.setting f has v ++ right)) =
        right.foldl edit ((Edit.setting f has v).foldl edit (left.foldl edit empty)) := by
      simp only [ofEdits, List.foldl_append]
    _ = (right.foldl edit (left.foldl edit empty)).set f v has := by
      rw [foldl_setting has habsent, foldl_edit_set hright]
    _ = (Record.ofEdits (left ++ right)).set f v has := by
      simp only [ofEdits, List.foldl_append]

theorem Dataset.ofEdits_setting {f : Field} {left right : List (Edit .dataset)}
    (hleft : ∀ e ∈ left, e.Spares f) (hright : ∀ e ∈ right, e.Spares f)
    (has : f ∈ Shape.dataset.fields) (v : f.Value) :
    Dataset.ofEdits (left ++ (Edit.setting f has v ++ right)) =
      (Dataset.ofEdits (left ++ right)).set f v has := by
  have habsent : (left.foldl edit empty).named f = none := by
    rw [toRecord_foldl_edit]
    exact Record.named_foldl_edit hleft
  calc
    Dataset.ofEdits (left ++ (Edit.setting f has v ++ right)) =
        right.foldl edit ((Edit.setting f has v).foldl edit (left.foldl edit empty)) := by
      simp only [ofEdits, List.foldl_append]
    _ = (right.foldl edit (left.foldl edit empty)).set f v has := by
      rw [foldl_setting has habsent, foldl_edit_set hright]
    _ = (Dataset.ofEdits (left ++ right)).set f v has := by
      simp only [ofEdits, List.foldl_append]

/-! ## Extra fields as a list of entries -/

theorem Extras.entries_putAll {extras : Extras s} {entries : List (String × Json)}
    (hdistinct : (Entries.keys (extras.entries ++ entries)).Nodup)
    (hallowed : ∀ key ∈ Entries.keys entries, key ∉ s.reserved) :
    (extras.putAll entries).entries =
      extras.entries ++ entries.filter fun entry => entry.2.truthy := by
  induction entries generalizing extras with
  | nil => simp [putAll]
  | cons entry rest ih =>
      obtain ⟨key, value⟩ := entry
      have hkey : key ∉ s.reserved := hallowed key List.mem_cons_self
      have hrest : ∀ k ∈ Entries.keys rest, k ∉ s.reserved :=
        fun k hk => hallowed k (List.mem_cons_of_mem key hk)
      have hput : extras.putAll ((key, value) :: rest) = (extras.put key value).putAll rest := rfl
      rw [hput]
      by_cases htruthy : value.truthy = true
      · have hnew : key ∉ Entries.keys extras.entries := by
          intro hmem
          rw [Entries.keys_append, Entries.keys_cons, List.nodup_append] at hdistinct
          exact hdistinct.2.2 key hmem key List.mem_cons_self rfl
        have hentries : (extras.put key value).entries = extras.entries ++ [(key, value)] := by
          simp [put, hkey, htruthy, Entries.put_of_not_mem hnew]
        rw [ih (by simpa [hentries] using hdistinct) hrest, hentries]
        simp [htruthy]
      · have hentries : extras.put key value = extras := by
          simp [put, htruthy]
        have hsub : (Entries.keys (extras.entries ++ rest)).Nodup := by
          refine hdistinct.sublist ?_
          exact ((List.sublist_cons_self (key, value) rest).append_left _).map Prod.fst
        rw [hentries, ih hsub hrest]
        simp [htruthy]

/-- Truthy entries with distinct, unreserved keys are kept as they are. -/
theorem Extras.putAll_entries (extras : Extras s) :
    Extras.empty.putAll extras.entries = extras := by
  apply ext_entries
  have hput : (Extras.empty.putAll extras.entries).entries =
      [] ++ extras.entries.filter fun entry => entry.2.truthy :=
    entries_putAll extras.distinct extras.allowed
  rw [hput, List.nil_append]
  exact List.filter_eq_self.mpr extras.truthy

theorem Record.withExtras_self (r : Record s) : r.withExtras r.extras.entries = r := by
  unfold withExtras
  rw [Extras.putAll_entries]

end DataCatalog
