import DataCatalog.Proofs.Rereading

/-!
# Records and the history of their edits

A record is determined by the edits that built it, and in a simple way: a named field has the value
that it was given last, unless that carries no information; an extra field stands where its key
first got a value that carries information, and has the last one of these; the locations are those
of the last list that was given, with those added since.  One edit keeps this account true, and so
does a run of edits.
-/

namespace DataCatalog

variable {s : Shape}

/-! ## What an edit gives -/

namespace Edit

/-- The value that is given to a field. -/
def value? (f : Field) : Edit s → Option f.Value
  | .set g _ v => if h : g = f then some (h ▸ v) else none
  | _ => none

/-- The extra field that is given.  Reserved keys and values without information give none. -/
def extra? : Edit s → Option (String × Json)
  | .extra key value =>
    if key ∉ s.reserved ∧ value.truthy = true then some (key, value) else none
  | _ => none

def locations? : Edit s → Option (List Location)
  | .locations _ items => some items
  | _ => none

def location? : Edit s → Option Location
  | .addLocation _ item => some item
  | _ => none

/-! ## What a history gives -/

def lastValue? (f : Field) (edits : List (Edit s)) : Option f.Value :=
  (edits.filterMap (value? f)).getLast?

def givenExtras (edits : List (Edit s)) : List (String × Json) :=
  edits.filterMap extra?

def lastExtra? (key : String) (edits : List (Edit s)) : Option Json :=
  Entries.get? key (givenExtras edits).reverse

/-- The locations of the last list that is given, and those that are added after it. -/
def placed (edits : List (Edit s)) : List Location :=
  (edits.filterMap locations?).getLast?.getD [] ++
    (edits.rtakeWhile fun e => e.locations?.isNone).filterMap location?

@[simp] theorem value?_set_self {f : Field} (has : f ∈ s.fields) (v : f.Value) :
    (Edit.set f has v).value? f = some v := by
  simp [value?]

theorem value?_set_of_ne {f g : Field} (h : g ≠ f) (has : g ∈ s.fields) (v : g.Value) :
    (Edit.set g has v).value? f = none := by
  simp [value?, h]

theorem lastValue?_concat (f : Field) (edits : List (Edit s)) (e : Edit s) :
    lastValue? f (edits ++ [e]) = (e.value? f).or (lastValue? f edits) := by
  unfold lastValue?
  rw [List.filterMap_append, List.getLast?_append]
  cases h : e.value? f <;> simp [h]

theorem givenExtras_concat (edits : List (Edit s)) (e : Edit s) :
    givenExtras (edits ++ [e]) = givenExtras edits ++ e.extra?.toList := by
  unfold givenExtras
  rw [List.filterMap_append]
  cases h : e.extra? <;> simp [h]

theorem placed_concat (edits : List (Edit s)) (e : Edit s) :
    placed (edits ++ [e]) = e.locations?.getD (placed edits ++ e.location?.toList) := by
  unfold placed
  rw [List.filterMap_append, List.getLast?_append, List.rtakeWhile_concat]
  cases e <;> simp [locations?, location?]

end Edit

/-! ## The account of a history -/

/-- The record is what this history of edits makes of the empty one. -/
structure Record.Reflects (edits : List (Edit s)) (r : Record s) : Prop where
  named : ∀ f, r.get? f = (Edit.lastValue? f edits).filter f.type.truthy
  extraValue : ∀ key, Entries.get? key r.extras.entries = Edit.lastExtra? key edits
  extraKeys : Entries.keys r.extras.entries = (Entries.keys (Edit.givenExtras edits)).eraseDups
  extraKeysDistinct : (Entries.keys r.extras.entries).Nodup
  extraKeysAllowed : ∀ key ∈ Entries.keys r.extras.entries, key ∉ s.reserved

theorem Record.get?_set_self (r : Record s) (f : Field) (v : f.Value) (has : f ∈ s.fields) :
    (r.set f v has).get? f = if f.type.truthy v then some v else none := by
  rw [get?, named_set_self, Field.keep]
  split <;> rfl

theorem Record.get?_set_of_ne (r : Record s) {f g : Field} (h : f ≠ g) (v : f.Value)
    (has : f ∈ s.fields) : (r.set f v has).get? g = r.get? g := by
  rw [get?, named_set_of_ne r h v has, get?]

/-- An edit that gives a field a value sets it, and any other edit leaves it alone. -/
theorem Record.get?_edit (r : Record s) (e : Edit s) (f : Field) :
    (r.edit e).get? f = ((e.value? f).map (some · |>.filter f.type.truthy)).getD (r.get? f) := by
  cases e with
  | set g has v =>
      by_cases h : g = f
      · subst h
        simp [edit, get?_set_self, Option.filter]
      · simp [edit, get?_set_of_ne r h, Edit.value?_set_of_ne h]
  | extra key value => rfl
  | locations dataset items => rfl
  | addLocation dataset item => rfl

theorem Record.extras_edit (r : Record s) (e : Edit s) :
    (r.edit e).extras.entries =
      (e.extra?.map fun given => Entries.put given.1 given.2 r.extras.entries).getD
        r.extras.entries := by
  cases e with
  | extra key value =>
      change (r.extras.put key value).entries = _
      by_cases h : key ∉ s.reserved ∧ value.truthy = true
      · simp [Extras.put, Edit.extra?, h]
      · simp [Extras.put, Edit.extra?, h]
  | set g has v => rfl
  | locations dataset items => rfl
  | addLocation dataset item => rfl

theorem Record.reflects_empty : (Record.empty : Record s).Reflects [] where
  named _ := rfl
  extraValue _ := rfl
  extraKeys := rfl
  extraKeysDistinct := List.nodup_nil
  extraKeysAllowed := by simp [empty, Extras.empty]

theorem Entries.get?_concat_reverse (key : String) (entries : List (String × Json))
    (given : Option (String × Json)) :
    Entries.get? key (entries ++ given.toList).reverse =
      (given.bind fun entry => if entry.1 = key then some entry.2 else none).or
        (Entries.get? key entries.reverse) := by
  cases given with
  | none => simp
  | some entry =>
      by_cases h : entry.1 = key <;> simp [Entries.get?, h]

theorem Record.Reflects.edit {r : Record s} {edits : List (Edit s)} (h : r.Reflects edits)
    (e : Edit s) : (r.edit e).Reflects (edits ++ [e]) where
  named f := by
    rw [get?_edit, Edit.lastValue?_concat, h.named f]
    cases e.value? f <;> rfl
  extraValue key := by
    have hold := h.extraValue key
    unfold Edit.lastExtra? at hold ⊢
    rw [extras_edit, Edit.givenExtras_concat, Entries.get?_concat_reverse, ← hold]
    cases e.extra? with
    | none => rfl
    | some given =>
        by_cases hkey : given.1 = key
        · subst hkey
          simp [Entries.get?_put_self]
        · simp [hkey, Entries.get?_put_of_ne (Ne.symm hkey)]
  extraKeys := by
    rw [extras_edit, Edit.givenExtras_concat, Entries.keys_append, List.eraseDups_append,
      ← h.extraKeys]
    cases hgiven : e.extra? with
    | none => simp
    | some given =>
        by_cases hmem : given.1 ∈ Entries.keys r.extras.entries
        · have hold : given.1 ∈ Entries.keys (Edit.givenExtras edits) := by
            rwa [h.extraKeys, List.mem_eraseDups] at hmem
          simp [Entries.keys_put_of_mem hmem, List.removeAll, hold]
        · have hnew : given.1 ∉ Entries.keys (Edit.givenExtras edits) := by
            rwa [h.extraKeys, List.mem_eraseDups] at hmem
          have hsingle : [given.1].eraseDups = [given.1] := by simp [List.eraseDups_cons]
          simp [Entries.put_of_not_mem hmem, List.removeAll, hnew, hsingle]
  extraKeysDistinct := (r.edit e).extras.distinct
  extraKeysAllowed := (r.edit e).extras.allowed

theorem Record.Reflects.foldl_edit {r : Record s} {before : List (Edit s)}
    (h : r.Reflects before) (edits : List (Edit s)) :
    (edits.foldl Record.edit r).Reflects (before ++ edits) := by
  induction edits generalizing r before with
  | nil => simpa using h
  | cons e rest ih => simpa using ih (h.edit e)

theorem Record.reflects_ofEdits (edits : List (Edit s)) :
    (Record.ofEdits edits).Reflects edits :=
  reflects_empty.foldl_edit edits

theorem Dataset.locations_edit (d : Dataset) (e : Edit .dataset) :
    (d.edit e).locations = e.locations?.getD (d.locations ++ e.location?.toList) := by
  cases e <;> simp [edit, Edit.locations?, Edit.location?]

theorem Dataset.locations_eq_placed {d : Dataset} {before : List (Edit .dataset)}
    (h : d.locations = Edit.placed before) (edits : List (Edit .dataset)) :
    (edits.foldl edit d).locations = Edit.placed (before ++ edits) := by
  induction edits generalizing d before with
  | nil => simpa using h
  | cons e rest ih =>
      have hstep : (d.edit e).locations = Edit.placed (before ++ [e]) := by
        rw [locations_edit, Edit.placed_concat, h]
      simpa using ih hstep

theorem Dataset.locations_ofEdits (edits : List (Edit .dataset)) :
    (Dataset.ofEdits edits).locations = Edit.placed edits := by
  have hempty : Dataset.empty.locations = Edit.placed ([] : List (Edit .dataset)) := rfl
  exact locations_eq_placed hempty edits

/-- The entry is one of this kind, and it is what the history makes of the empty one. -/
def Entity.Reflects : (kind : EntityKind) → List (Edit kind.shape) → Entity → Prop
  | .dataset, edits, .dataset d => d.toRecord.Reflects edits ∧ d.locations = Edit.placed edits
  | .folder, edits, .folder r => Record.Reflects edits r
  | .group, edits, .group r => Record.Reflects edits r
  | .location, edits, .location r => Record.Reflects edits r
  | _, _, _ => False

theorem Entity.reflects_build (kind : EntityKind) (edits : List (Edit kind.shape)) :
    (Entity.build kind edits).Reflects kind edits := by
  cases kind with
  | dataset =>
      have hrecord : (Dataset.ofEdits edits).toRecord.Reflects edits :=
        Dataset.toRecord_ofEdits edits ▸ Record.reflects_ofEdits edits
      exact ⟨hrecord, Dataset.locations_ofEdits edits⟩
  | folder => exact Record.reflects_ofEdits edits
  | group => exact Record.reflects_ofEdits edits
  | location => exact Record.reflects_ofEdits edits

end DataCatalog
