import DataCatalog.Proofs.History

/-!
# What the members of an object make of a record

The members of an object are read one by one, and each is read for itself: an object is read
successfully exactly when every member is.  A member makes edits under its own key alone, and at
most one.  So where keys are distinct, a look-up in the record that is read answers a look-up in the
object, and the order of the members shows in the order of the extra fields only.
-/

namespace DataCatalog

variable {s : Shape}

/-- The key of the member that makes such an edit. -/
def Edit.key : Edit s → String
  | .set f _ _ => f.key
  | .extra key _ => key
  | .locations _ _ => Shape.locationsKey
  | .addLocation _ _ => Shape.locationsKey

namespace Edit

theorem value?_eq_none {f : Field} {e : Edit s} (h : e.key ≠ f.key) : e.value? f = none := by
  cases e with
  | set g has v => exact value?_set_of_ne (fun hg => h (congrArg Field.key hg)) has v
  | extra key value => rfl
  | locations dataset items => rfl
  | addLocation dataset item => rfl

theorem key_of_extra? {e : Edit s} {given : String × Json} (h : e.extra? = some given) :
    e.key = given.1 := by
  cases e with
  | extra key value =>
      simp only [extra?, Option.ite_none_right_eq_some, Option.some.injEq] at h
      rw [← h.2]
      rfl
  | set f has v => cases h
  | locations dataset items => cases h
  | addLocation dataset item => cases h

theorem key_of_locations? {e : Edit s} {items : List Location} (h : e.locations? = some items) :
    e.key = Shape.locationsKey := by
  cases e with
  | locations dataset items => rfl
  | set f has v => cases h
  | extra key value => cases h
  | addLocation dataset item => cases h

/-- No edit under the key of a field gives it a value, so it has none. -/
theorem lastValue?_eq_none {f : Field} {edits : List (Edit s)} (h : ∀ e ∈ edits, e.key ≠ f.key) :
    lastValue? f edits = none := by
  have hvalues : edits.filterMap (value? f) = [] :=
    List.filterMap_eq_nil_iff.mpr fun e he => value?_eq_none (h e he)
  rw [lastValue?, hvalues, List.getLast?_nil]

theorem keys_givenExtras_sublist (edits : List (Edit s)) :
    (Entries.keys (givenExtras edits)).Sublist (edits.map key) := by
  induction edits with
  | nil => exact .slnil
  | cons e rest ih =>
      cases hgiven : e.extra? with
      | none =>
          have hnone : givenExtras (e :: rest) = givenExtras rest :=
            List.filterMap_cons_none hgiven
          rw [hnone]
          exact ih.cons _
      | some given =>
          have hsome : givenExtras (e :: rest) = given :: givenExtras rest :=
            List.filterMap_cons_some hgiven
          rw [hsome, Entries.keys_cons, List.map_cons, key_of_extra? hgiven]
          exact ih.cons_cons _

theorem givenExtras_append (left right : List (Edit s)) :
    givenExtras (left ++ right) = givenExtras left ++ givenExtras right :=
  List.filterMap_append

theorem lastExtra?_eq_none {key : String} {edits : List (Edit s)}
    (h : ∀ e ∈ edits, e.key ≠ key) : lastExtra? key edits = none := by
  rw [lastExtra?, Entries.get?_eq_none_iff]
  intro hmem
  have hkeys : key ∈ Entries.keys (givenExtras edits) := by
    simpa [Entries.keys] using hmem
  obtain ⟨e, he, hkey⟩ := List.mem_map.mp ((keys_givenExtras_sublist edits).subset hkeys)
  exact h e he hkey

theorem lastValue?_append (f : Field) (left right : List (Edit s)) :
    lastValue? f (left ++ right) = (lastValue? f right).or (lastValue? f left) := by
  rw [lastValue?, List.filterMap_append, List.getLast?_append]
  rfl

theorem lastExtra?_append (key : String) (left right : List (Edit s)) :
    lastExtra? key (left ++ right) = (lastExtra? key right).or (lastExtra? key left) := by
  rw [lastExtra?, givenExtras_append, List.reverse_append, Entries.get?_append]
  rfl

/-- The locations are those of the one list that is given, if no location is added by itself. -/
theorem placed_of_forall {edits : List (Edit s)} (h : ∀ e ∈ edits, e.location? = none) :
    placed edits = (edits.filterMap locations?).getLast?.getD [] := by
  have hadded : (edits.rtakeWhile fun e => e.locations?.isNone).filterMap location? = [] :=
    List.filterMap_eq_nil_iff.mpr fun e he => h e ((List.rtakeWhile_suffix _ _).subset he)
  rw [placed, hadded, List.append_nil]

end Edit

namespace Codec

variable {c : Codec} {key : String} {value : Json} {members : List (String × Json)}
  {edits : List (Edit s)}

/-! ## One member -/

/-- A member sets a named field, or it gives the locations of a dataset or an extra field. -/
theorem readMember_cases (h : c.readMember s key value = .ok edits) :
    (∃ (f : Field) (has : f ∈ s.fields) (v? : Option f.Value), f.key = key ∧
        c.readField key f.type value = .ok v? ∧ edits = v?.toList.map (Edit.set f has)) ∨
      (∃ (dataset : s = .dataset) (items : List Location), key = Shape.locationsKey ∧
        c.readLocations value = .ok items ∧ edits = [.locations dataset items]) ∨
      (s.field? key = none ∧ ¬(s = .dataset ∧ key = Shape.locationsKey) ∧
        ∃ kept, c.canonicalExtra key value = .ok kept ∧ edits = [.extra key kept]) := by
  cases hfield : s.field? key with
  | some field =>
      obtain ⟨f, has⟩ := field
      have hkey : f.key = key := Shape.key_of_field? hfield
      subst hkey
      rw [readMember_field c has] at h
      obtain ⟨v?, hv, rfl⟩ := map_eq_ok_iff.mp h
      exact .inl ⟨f, has, v?, rfl, hv, rfl⟩
  | none =>
      by_cases hplace : s = .dataset ∧ key = Shape.locationsKey
      · obtain ⟨rfl, rfl⟩ := hplace
        rw [readMember_locations] at h
        obtain ⟨items, hitems, rfl⟩ := map_eq_ok_iff.mp h
        exact .inr (.inl ⟨rfl, items, rfl, hitems, rfl⟩)
      · rw [readMember_extra c value hfield hplace] at h
        obtain ⟨kept, hkept, rfl⟩ := map_eq_ok_iff.mp h
        exact .inr (.inr ⟨rfl, hplace, kept, hkept, rfl⟩)

theorem keys_of_readMember (h : c.readMember s key value = .ok edits) :
    (edits.map Edit.key).Sublist [key] := by
  rcases readMember_cases h with
    ⟨f, has, v?, rfl, -, rfl⟩ | ⟨dataset, items, rfl, -, rfl⟩ | ⟨-, -, kept, -, rfl⟩
  · cases v? with
    | none => exact .cons _ .slnil
    | some v => exact .refl _
  · exact .refl _
  · exact .refl _

/-- Members never add a location by itself. -/
theorem location?_of_readMember (h : c.readMember s key value = .ok edits) :
    ∀ e ∈ edits, e.location? = none := by
  rcases readMember_cases h with
    ⟨f, has, v?, rfl, -, rfl⟩ | ⟨dataset, items, rfl, -, rfl⟩ | ⟨-, -, kept, -, rfl⟩
  · intro e he
    obtain ⟨v, -, rfl⟩ := List.mem_map.mp he
    rfl
  · exact List.forall_mem_singleton.mpr rfl
  · exact List.forall_mem_singleton.mpr rfl

/-! ## All members -/

theorem readMembers_cons_eq_ok_iff {member : String × Json} {rest : List (String × Json)} :
    c.readMembers s (member :: rest) = .ok edits ↔
      ∃ first more, c.readMember s member.1 member.2 = .ok first ∧
        c.readMembers s rest = .ok more ∧ edits = first ++ more := by
  rw [readMembers_cons, bind_eq_ok_iff]
  constructor
  · rintro ⟨first, hfirst, hmap⟩
    obtain ⟨more, hmore, rfl⟩ := map_eq_ok_iff.mp hmap
    exact ⟨first, more, hfirst, hmore, rfl⟩
  · rintro ⟨first, more, hfirst, hmore, rfl⟩
    exact ⟨first, hfirst, map_eq_ok_iff.mpr ⟨more, hmore, rfl⟩⟩

/-- An object is read exactly when each of its members is. -/
theorem readMembers_succeeds_iff :
    Succeeds (c.readMembers s members) ↔
      ∀ member ∈ members, Succeeds (c.readMember s member.1 member.2) := by
  induction members with
  | nil => simpa using ⟨[], rfl⟩
  | cons member rest ih =>
      rw [List.forall_mem_cons, ← ih]
      constructor
      · rintro ⟨edits, hedits⟩
        obtain ⟨first, more, hfirst, hmore, -⟩ := readMembers_cons_eq_ok_iff.mp hedits
        exact ⟨⟨first, hfirst⟩, ⟨more, hmore⟩⟩
      · rintro ⟨⟨first, hfirst⟩, ⟨more, hmore⟩⟩
        exact ⟨first ++ more, readMembers_cons_eq_ok_iff.mpr ⟨first, more, hfirst, hmore, rfl⟩⟩

theorem keys_of_readMembers (h : c.readMembers s members = .ok edits) :
    (edits.map Edit.key).Sublist (Entries.keys members) := by
  induction members generalizing edits with
  | nil =>
      cases h
      exact .slnil
  | cons member rest ih =>
      obtain ⟨first, more, hfirst, hmore, rfl⟩ := readMembers_cons_eq_ok_iff.mp h
      rw [List.map_append]
      exact (keys_of_readMember hfirst).append (ih hmore)

/-- Every edit is made by one of the members. -/
theorem exists_member_of_mem {e : Edit s} (h : c.readMembers s members = .ok edits)
    (he : e ∈ edits) :
    ∃ member ∈ members, ∃ own, c.readMember s member.1 member.2 = .ok own ∧ e ∈ own := by
  induction members generalizing edits with
  | nil =>
      cases h
      cases he
  | cons member rest ih =>
      obtain ⟨first, more, hfirst, hmore, rfl⟩ := readMembers_cons_eq_ok_iff.mp h
      rcases List.mem_append.mp he with hown | hlater
      · exact ⟨member, List.mem_cons_self, first, hfirst, hown⟩
      · obtain ⟨other, hother, own, hread, hown⟩ := ih hmore hlater
        exact ⟨other, List.mem_cons_of_mem member hother, own, hread, hown⟩

theorem location?_of_readMembers (h : c.readMembers s members = .ok edits) :
    ∀ e ∈ edits, e.location? = none := by
  intro e he
  obtain ⟨member, -, own, hread, hown⟩ := exists_member_of_mem h he
  exact location?_of_readMember hread e hown

theorem key_ne_of_readMembers (h : c.readMembers s members = .ok edits)
    (hkey : key ∉ Entries.keys members) : ∀ e ∈ edits, e.key ≠ key := by
  rintro e he rfl
  exact hkey ((keys_of_readMembers h).subset (List.mem_map_of_mem he))

/-- The edits under a key are those of its one member. -/
theorem exists_edits_of_mem (hdistinct : (Entries.keys members).Nodup)
    (h : c.readMembers s members = .ok edits) (hmem : (key, value) ∈ members) :
    ∃ left own right, edits = left ++ (own ++ right) ∧ c.readMember s key value = .ok own ∧
      (∀ e ∈ left, e.key ≠ key) ∧ ∀ e ∈ right, e.key ≠ key := by
  induction members generalizing edits with
  | nil => cases hmem
  | cons member rest ih =>
      rw [Entries.keys_cons, List.nodup_cons] at hdistinct
      obtain ⟨first, more, hfirst, hmore, rfl⟩ := readMembers_cons_eq_ok_iff.mp h
      rcases List.mem_cons.mp hmem with rfl | hrest
      · exact ⟨[], first, more, rfl, hfirst, List.forall_mem_nil _,
          key_ne_of_readMembers hmore hdistinct.1⟩
      · obtain ⟨left, own, right, rfl, hown, hleft, hright⟩ := ih hdistinct.2 hmore hrest
        refine ⟨first ++ left, own, right, by simp, hown, ?_, hright⟩
        refine List.forall_mem_append.mpr ⟨?_, hleft⟩
        rintro e he rfl
        have hkey : e.key = member.1 :=
          List.mem_singleton.mp ((keys_of_readMember hfirst).subset (List.mem_map_of_mem he))
        exact hdistinct.1 (hkey ▸ Entries.mem_keys_of_mem hrest)

/-! ## Look-ups -/

theorem lastValue?_of_mem {f : Field} (has : f ∈ s.fields)
    (hdistinct : (Entries.keys members).Nodup) (h : c.readMembers s members = .ok edits)
    (hmem : (f.key, value) ∈ members) :
    c.readField f.key f.type value = .ok (Edit.lastValue? f edits) := by
  obtain ⟨left, own, right, rfl, hown, hleft, hright⟩ := exists_edits_of_mem hdistinct h hmem
  rw [readMember_field c has] at hown
  obtain ⟨v?, hv, rfl⟩ := map_eq_ok_iff.mp hown
  rw [Edit.lastValue?_append, Edit.lastValue?_append, Edit.lastValue?_eq_none hleft,
    Edit.lastValue?_eq_none hright, hv]
  cases v? <;> simp [Edit.lastValue?]

theorem lastValue?_of_notMem {f : Field} (h : c.readMembers s members = .ok edits)
    (hmem : f.key ∉ Entries.keys members) : Edit.lastValue? f edits = none :=
  Edit.lastValue?_eq_none (key_ne_of_readMembers h hmem)

/-- An extra field is kept in its canonical form, unless this carries no information. -/
theorem lastExtra?_of_mem (hkey : key ∉ s.reserved) (hdistinct : (Entries.keys members).Nodup)
    (h : c.readMembers s members = .ok edits) (hmem : (key, value) ∈ members) :
    ∃ kept, c.canonicalExtra key value = .ok kept ∧
      Edit.lastExtra? key edits = if kept.truthy then some kept else none := by
  obtain ⟨left, own, right, rfl, hown, hleft, hright⟩ := exists_edits_of_mem hdistinct h hmem
  rw [readMember_extra c value (Shape.field?_eq_none_of_not_mem_reserved hkey)
    (Shape.ne_locationsKey_of_not_mem_reserved hkey)] at hown
  obtain ⟨kept, hkept, rfl⟩ := map_eq_ok_iff.mp hown
  refine ⟨kept, hkept, ?_⟩
  rw [Edit.lastExtra?_append, Edit.lastExtra?_append, Edit.lastExtra?_eq_none hleft,
    Edit.lastExtra?_eq_none hright]
  by_cases htruthy : kept.truthy = true <;>
    simp [Edit.lastExtra?, Edit.givenExtras, Edit.extra?, Entries.get?, hkey, htruthy]

theorem lastExtra?_of_notMem (h : c.readMembers s members = .ok edits)
    (hmem : key ∉ Entries.keys members) : Edit.lastExtra? key edits = none :=
  Edit.lastExtra?_eq_none (key_ne_of_readMembers h hmem)

theorem locations?_eq_none {edits : List (Edit s)} (h : ∀ e ∈ edits, e.key ≠ Shape.locationsKey) :
    edits.filterMap Edit.locations? = [] := by
  rw [List.filterMap_eq_nil_iff]
  intro e he
  cases hitems : e.locations? with
  | none => rfl
  | some items => exact absurd (Edit.key_of_locations? hitems) (h e he)

theorem placed_of_mem {edits : List (Edit .dataset)} (hdistinct : (Entries.keys members).Nodup)
    (h : c.readMembers .dataset members = .ok edits)
    (hmem : (Shape.locationsKey, value) ∈ members) :
    c.readLocations value = .ok (Edit.placed edits) := by
  rw [Edit.placed_of_forall (location?_of_readMembers h)]
  obtain ⟨left, own, right, rfl, hown, hleft, hright⟩ := exists_edits_of_mem hdistinct h hmem
  rw [readMember_locations] at hown
  obtain ⟨items, hitems, rfl⟩ := map_eq_ok_iff.mp hown
  rw [List.filterMap_append, List.filterMap_append, locations?_eq_none hleft,
    locations?_eq_none hright, hitems]
  rfl

theorem placed_of_notMem {edits : List (Edit .dataset)}
    (h : c.readMembers .dataset members = .ok edits)
    (hmem : Shape.locationsKey ∉ Entries.keys members) : Edit.placed edits = [] := by
  rw [Edit.placed_of_forall (location?_of_readMembers h),
    locations?_eq_none (key_ne_of_readMembers h hmem)]
  rfl

end Codec

end DataCatalog
