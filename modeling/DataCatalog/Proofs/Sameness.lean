import DataCatalog.Proofs.MetadataRoundTrip

/-!
# Equality up to the order of members

Two objects are the same when they have equally many members and each member of the first has its
equal in the second.  Every document whose keys are distinct is the same as itself.  Values that are
the same agree on whether they carry information.  A record is the same as itself in every field
that can be written; only a value that is no number differs from itself, and that has no written
form.
-/

namespace DataCatalog

/-! ## Documents -/

theorem Binary64.Finite.same_self (x : Binary64.Finite) : x.same x = true := by
  simp [same]

theorem Binary64.Finite.isZero_eq_of_same {x y : Binary64.Finite} (h : x.same y = true) :
    x.isZero = y.isZero := by
  simp only [same, Bool.or_eq_true, Bool.and_eq_true, beq_iff_eq] at h
  rcases h with ⟨hx, hy⟩ | ⟨_, hunits⟩
  · simp [isZero, hx, hy]
  · simp [isZero, hunits]

namespace Json

theorem Number.isZero_eq_of_same {m n : Number} (h : m.same n = true) :
    m.isZero = n.isZero := by
  cases m with
  | integer m _ _ =>
      cases n with
      | integer n _ _ =>
          have hvalue : m = n := by simpa [same] using h
          simp [isZero, hvalue]
      | float y => cases h
  | float x =>
      cases n with
      | integer n _ _ => cases h
      | float y => exact Binary64.Finite.isZero_eq_of_same h

theorem isEmpty_eq_of_sameItems {items others : List Json}
    (h : sameItems items others = true) : items.isEmpty = others.isEmpty := by
  cases items with
  | nil =>
      cases others with
      | nil => rfl
      | cons other rest => cases h
  | cons item rest =>
      cases others with
      | nil => cases h
      | cons other rest => rfl

/-- Values that are the same carry information both or neither. -/
theorem truthy_eq_of_same {x y : Json} (h : x.same y = true) : x.truthy = y.truthy := by
  unfold same at h
  split at h
  · rfl
  · next a b =>
      rw [beq_iff_eq] at h
      rw [h]
  · next m n =>
      simp only [truthy, Number.isZero_eq_of_same h]
  · next s t =>
      rw [beq_iff_eq] at h
      rw [h]
  · next xs ys =>
      simp only [truthy, isEmpty_eq_of_sameItems h]
  · next ms ns =>
      rw [Bool.and_eq_true, beq_iff_eq] at h
      have hempty : ms.isEmpty = ns.isEmpty := by
        rw [Bool.eq_iff_iff, List.isEmpty_iff_length_eq_zero, List.isEmpty_iff_length_eq_zero, h.1]
      simp only [truthy, hempty]
  · cases h

theorem sameMembers_iff {members others : List (String × Json)} :
    sameMembers members others = true ↔
      ∀ member ∈ members, ∃ value,
        Entries.get? member.1 others = some value ∧ member.2.same value = true := by
  induction members with
  | nil => simp [sameMembers]
  | cons member rest ih =>
      obtain ⟨key, x⟩ := member
      rw [sameMembers, Bool.and_eq_true, ih, List.forall_mem_cons]
      refine and_congr_left fun _ => ?_
      cases Entries.get? key others with
      | none => simp
      | some y => simp

theorem same_object_iff {members others : List (String × Json)} :
    (object members).same (.object others) = true ↔
      members.length = others.length ∧
        ∀ member ∈ members, ∃ value,
          Entries.get? member.1 others = some value ∧ member.2.same value = true := by
  rw [same, Bool.and_eq_true, beq_iff_eq, sameMembers_iff]

theorem Number.same_self (n : Number) : n.same n = true := by
  cases n with
  | integer value lower upper => exact beq_self_eq_true value
  | float x => exact x.same_self

theorem sameItems_iff {items others : List Json} :
    sameItems items others = true ↔
      List.Forall₂ (fun item other => item.same other = true) items others := by
  induction items generalizing others with
  | nil => cases others <;> simp [sameItems]
  | cons item rest ih =>
      cases others with
      | nil => simp [sameItems]
      | cons other more => simp [sameItems, ih]

mutual

theorem same_self : (value : Json) → value.WellFormed → value.same value = true
  | .null, _ => rfl
  | .bool value, _ => beq_self_eq_true value
  | .number n, _ => n.same_self
  | .string s, _ => beq_self_eq_true s
  | .array items, hwell => by
      rw [same, sameItems_iff, List.forall₂_same]
      exact same_self_of_mem_items items hwell
  | .object members, hwell => by
      refine same_object_iff.mpr ⟨rfl, fun member hmem => ?_⟩
      exact ⟨member.2, (Entries.get?_eq_some_iff hwell.1).mpr hmem,
        same_self_of_mem_members members hwell.2 member hmem⟩

theorem same_self_of_mem_items :
    (items : List Json) → ItemsWellFormed items → ∀ item ∈ items, item.same item = true
  | [], _ => List.forall_mem_nil _
  | item :: rest, hwell =>
    List.forall_mem_cons.mpr ⟨same_self item hwell.1, same_self_of_mem_items rest hwell.2⟩

theorem same_self_of_mem_members :
    (members : List (String × Json)) → MembersWellFormed members →
      ∀ member ∈ members, member.2.same member.2 = true
  | [], _ => List.forall_mem_nil _
  | (_, value) :: rest, hwell =>
    List.forall_mem_cons.mpr ⟨same_self value hwell.1, same_self_of_mem_members rest hwell.2⟩

end

/-- Members with the same keys in the same order, and others, are the same together. -/
theorem same_append {own own' extras extras' : List (String × Json)}
    (hown : List.Forall₂ (fun a b => b.1 = a.1 ∧ a.2.same b.2 = true) own own')
    (hextras : (object extras).same (.object extras') = true)
    (hdistinct : (Entries.keys (own ++ extras)).Nodup) :
    (object (own ++ extras)).same (.object (own' ++ extras')) = true := by
  have hkeys : Entries.keys own' = Entries.keys own := by
    clear hextras hdistinct
    induction hown with
    | nil => rfl
    | cons hhead _ ih => rw [Entries.keys_cons, Entries.keys_cons, hhead.1, ih]
  rw [Entries.keys_append, List.nodup_append] at hdistinct
  obtain ⟨hlength, hmembers⟩ := same_object_iff.mp hextras
  refine same_object_iff.mpr ⟨by simp [hown.length_eq, hlength], fun member hmem => ?_⟩
  rcases List.mem_append.mp hmem with hleft | hright
  · obtain ⟨other, hother, hkey, hsame⟩ := exists_of_forall₂ hown hleft
    have hget : Entries.get? member.1 own' = some other.2 :=
      (Entries.get?_eq_some_iff (hkeys ▸ hdistinct.1)).mpr (hkey ▸ hother)
    exact ⟨other.2, by rw [Entries.get?_append, hget, Option.some_or], hsame⟩
  · have hnew : member.1 ∉ Entries.keys own' := by
      rw [hkeys]
      exact fun hold => hdistinct.2.2 _ hold _ (Entries.mem_keys_of_mem hright) rfl
    rw [Entries.get?_append_of_not_mem hnew]
    exact hmembers member hright

end Json

/-! ## Fields that can be written -/

theorem Metadata.same_self {m : Metadata} (h : ∀ entry ∈ m.entries, entry.2.same entry.2 = true) :
    Metadata.same m m = true := by
  unfold same
  rw [beq_self_eq_true, Bool.true_and, List.all_eq_true]
  intro pair hpair
  rw [List.zip_eq_zipWith, List.zipWith_self] at hpair
  obtain ⟨entry, hentry, rfl⟩ := List.mem_map.mp hpair
  simp [h entry hentry]

namespace Codec

variable {c : Codec}

theorem same_self_of_encodeScalar {s : Scalar} {value : Json}
    (h : encodeScalar s = .ok value) : s.same s = true := by
  cases s with
  | integer n => simp [Scalar.same]
  | text s => simp [Scalar.same]
  | decimal x =>
      cases x with
      | finite x => exact x.same_self
      | nan => cases h
      | infinite negative => cases h

theorem same_self_of_encodeMetadata {m : Metadata} {value : Json}
    (h : c.encodeMetadata m = .ok value) : Metadata.same m m = true := by
  obtain ⟨triples, htriples, _⟩ := map_eq_ok_iff.mp h
  apply Metadata.same_self
  intro entry hentry
  obtain ⟨triple, _, htriple⟩ := exists_ok_of_mapM_eq_ok htriples hentry
  obtain ⟨_, scalar, _, hscalar, _⟩ := encodeTriple_eq_ok_iff.mp htriple
  exact same_self_of_encodeScalar hscalar

theorem same_self_of_encodeValue {type : FieldType} {v : type.Value} {value : Json}
    (h : c.encodeValue type v = .ok value) : type.same v v = true := by
  cases type with
  | integer =>
      have hself : ∀ n : Int64, (n == n) = true := fun n => beq_self_eq_true n
      exact hself v
  | text =>
      have hself : ∀ t : String, (t == t) = true := fun t => beq_self_eq_true t
      exact hself v
  | metadata => exact same_self_of_encodeMetadata h

end Codec

end DataCatalog
