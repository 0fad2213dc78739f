import DataCatalog.Proofs.Rewritten

/-!
# Extra members without information

An extra member whose value is falsy leaves no trace in the entry that is read, because a falsy value
other than the empty object is its own canonical form and is not stored.  The empty object is no
such value: like every object without a tag it is refused where there is no default kind, and else
read as an entry of this kind, whose tag is then kept.
-/

namespace DataCatalog

variable {s : Shape}

/-! ## Edits without information -/

theorem Record.edit_extra_of_falsy {value : Json} (h : value.truthy = false) (key : String)
    (r : Record s) : r.edit (.extra key value) = r := by
  have hput : r.extras.put key value = r.extras := dif_neg (by simp [h])
  change { r with extras := r.extras.put key value } = r
  rw [hput]

theorem Dataset.edit_extra_of_falsy {value : Json} (h : value.truthy = false) (key : String)
    (d : Dataset) : d.edit (.extra key value) = d :=
  congrArg (Dataset.mk · d.locations) (Record.edit_extra_of_falsy h key d.toRecord)

theorem Record.ofEdits_extra_of_falsy {value : Json} (h : value.truthy = false) (key : String)
    (left right : List (Edit s)) :
    ofEdits (left ++ .extra key value :: right) = ofEdits (left ++ right) := by
  simp only [ofEdits, List.foldl_append, List.foldl_cons, edit_extra_of_falsy h]

theorem Dataset.ofEdits_extra_of_falsy {value : Json} (h : value.truthy = false) (key : String)
    (left right : List (Edit .dataset)) :
    ofEdits (left ++ .extra key value :: right) = ofEdits (left ++ right) := by
  simp only [ofEdits, List.foldl_append, List.foldl_cons, edit_extra_of_falsy h]

theorem Entity.build_extra_of_falsy {value : Json} (h : value.truthy = false) {kind : EntityKind}
    (key : String) (left right : List (Edit kind.shape)) :
    build kind (left ++ .extra key value :: right) = build kind (left ++ right) := by
  cases kind with
  | dataset => exact congrArg Entity.dataset (Dataset.ofEdits_extra_of_falsy h key left right)
  | folder => exact congrArg Entity.folder (Record.ofEdits_extra_of_falsy h key left right)
  | group => exact congrArg Entity.group (Record.ofEdits_extra_of_falsy h key left right)
  | location => exact congrArg Entity.location (Record.ofEdits_extra_of_falsy h key left right)

/-! ## Objects with one member more -/

theorem Entries.get?_append_cons_of_ne {α : Type} {key k : String} (h : k ≠ key) (value : α)
    (left right : List (String × α)) :
    get? key (left ++ (k, value) :: right) = get? key (left ++ right) := by
  simp only [get?_append, get?, h, if_false]

namespace Codec

variable {c : Codec} {key : String} {value : Json} {before after : List (String × Json)}
  {kind : EntityKind}

theorem role_of_taggedKind {members : List (String × Json)}
    (h : taggedKind members = .ok (some kind)) : c.role members = .ok (.entity kind) := by
  rw [role, h]

theorem taggedKind_insert (h : key ≠ Shape.tagKey) :
    taggedKind (before ++ (key, value) :: after) = taggedKind (before ++ after) := by
  unfold taggedKind
  rw [Entries.get?_append_cons_of_ne h]

/-- The members of an object with an extra member among them. -/
theorem readMembers_insert_extra (hkey : key ∉ s.reserved) :
    c.readMembers s (before ++ (key, value) :: after) =
      c.readMembers s before >>= fun left =>
        c.canonicalExtra key value >>= fun kept =>
          (c.readMembers s after).map fun right => left ++ .extra key kept :: right := by
  rw [readMembers_append, readMembers_cons,
    readMember_extra c value (Shape.field?_eq_none_of_not_mem_reserved hkey)
      (Shape.ne_locationsKey_of_not_mem_reserved hkey)]
  cases c.readMembers s before with
  | error e => rfl
  | ok left =>
      cases c.canonicalExtra key value with
      | error e => rfl
      | ok kept =>
          cases c.readMembers s after <;> rfl

/-- A tagged object with an extra member is the entry that the other members build, with the extra
field at its place among the edits. -/
theorem decode_insert_extra (htag : taggedKind (before ++ after) = .ok (some kind))
    (hkey : key ∉ kind.shape.reserved) :
    c.decode (.object (before ++ (key, value) :: after)) =
      c.readMembers kind.shape before >>= fun left =>
        c.canonicalExtra key value >>= fun kept =>
          (c.readMembers kind.shape after).map fun right =>
            .entity (.build kind (left ++ .extra key kept :: right)) := by
  have hne : key ≠ Shape.tagKey := fun h => hkey (Shape.mem_reserved.mpr (.inl h))
  rw [decode_object_of_entity (role_of_taggedKind ((taggedKind_insert hne).trans htag)),
    readMembers_insert_extra hkey]
  cases c.readMembers kind.shape before with
  | error e => rfl
  | ok left =>
      cases c.canonicalExtra key value with
      | error e => rfl
      | ok kept =>
          cases c.readMembers kind.shape after <;> rfl

theorem decode_tagged_append (htag : taggedKind (before ++ after) = .ok (some kind)) :
    c.decode (.object (before ++ after)) =
      c.readMembers kind.shape before >>= fun left =>
        (c.readMembers kind.shape after).map fun right =>
          .entity (.build kind (left ++ right)) := by
  rw [decode_object_of_entity (role_of_taggedKind htag), readMembers_append]
  cases c.readMembers kind.shape before with
  | error e => rfl
  | ok left =>
      cases c.readMembers kind.shape after <;> rfl

/-! ## Canonical forms of falsy values -/

/-- An object with a tag and nothing else. -/
def taggedOnly (kind : EntityKind) : Json :=
  .object [(Shape.tagKey, .string kind.tag)]

/-- A falsy value is its own canonical form, unless it is an object. -/
theorem canonicalExtra_of_falsy (hversion : key ≠ Field.versionMetadata.key)
    (hfalsy : value.truthy = false) (hvalue : value ≠ .object []) :
    c.canonicalExtra key value = .ok value := by
  rw [canonicalExtra, if_neg hversion]
  cases value with
  | object members =>
      cases members with
      | nil => exact absurd rfl hvalue
      | cons member rest => cases hfalsy
  | array items =>
      cases items with
      | nil => rfl
      | cons item rest => cases hfalsy
  | null => rfl
  | bool value => rfl
  | number value => rfl
  | string value => rfl

/-- The empty object has no type. -/
theorem canonicalExtra_empty_of_none (hversion : key ≠ Field.versionMetadata.key)
    (hdefault : c.defaultKind = none) :
    c.canonicalExtra key (.object []) = .error (Cause.noTypeInformation.atField key) := by
  have hrole : c.role [] = .error Cause.noTypeInformation.error := by
    simp only [role, taggedKind, Entries.get?, hdefault]
    rfl
  rw [canonicalExtra, if_neg hversion, decode, hrole]
  rfl

/-- The empty object is an entry of the default kind. -/
theorem canonicalExtra_empty_of_some {default : EntityKind}
    (hversion : key ≠ Field.versionMetadata.key) (hdefault : c.defaultKind = some default) :
    c.canonicalExtra key (.object []) = .ok (taggedOnly default) := by
  have hrole : c.role [] = .ok (.entity default) := by
    simp only [role, taggedKind, Entries.get?, hdefault]
    rfl
  rw [canonicalExtra, if_neg hversion, decode_object_of_entity hrole]
  cases default <;> rfl

theorem canonicalExtra_taggedOnly (hversion : key ≠ Field.versionMetadata.key)
    (kind : EntityKind) : c.canonicalExtra key (taggedOnly kind) = .ok (taggedOnly kind) := by
  have htag : taggedKind [(Shape.tagKey, .string kind.tag)] = .ok (some kind) :=
    congrArg Except.ok (EntityKind.ofTag?_tag kind)
  rw [canonicalExtra, if_neg hversion, taggedOnly,
    decode_object_of_entity (role_of_taggedKind htag)]
  cases kind <;> rfl

/-! ## What a falsy extra member does -/

/-- An extra field whose canonical form carries information is found in the entry, if no later
member has its key. -/
theorem get?_extraFields_of_insert {kept : Json} {e : Entity}
    (htag : taggedKind (before ++ after) = .ok (some kind)) (hkey : key ∉ kind.shape.reserved)
    (hlast : key ∉ Entries.keys after) (hkept : c.canonicalExtra key value = .ok kept)
    (htruthy : kept.truthy = true)
    (h : c.decode (.object (before ++ (key, value) :: after)) = .ok (.entity e)) :
    Entries.get? key e.extraFields = some kept := by
  rw [decode_insert_extra htag hkey, hkept] at h
  obtain ⟨left, -, hright⟩ := bind_eq_ok_iff.mp h
  rw [ok_bind] at hright
  obtain ⟨right, hafter, hentity⟩ := map_eq_ok_iff.mp hright
  cases hentity
  have hlater : Edit.lastExtra? key right = none := lastExtra?_of_notMem hafter hlast
  have hown : Edit.lastExtra? key [(.extra key kept : Edit kind.shape)] = some kept := by
    simp [Edit.lastExtra?, Edit.givenExtras, Edit.extra?, Entries.get?, hkey, htruthy]
  rw [(Entity.reflects_extraFields kind _).1, ← List.singleton_append, Edit.lastExtra?_append,
    Edit.lastExtra?_append, hlater, hown]
  rfl

/-- A falsy extra member other than the empty object changes nothing, whether or not the other
members can be read.  An empty object makes reading fail where there is no default kind, and else it
is kept as the tag of that kind. -/
theorem decode_falsy_extra (c : Codec) {before after : List (String × Json)} {kind : EntityKind}
    {key : String} (htag : taggedKind (before ++ after) = .ok (some kind))
    (hkey : key ∉ kind.shape.reserved) (hversion : key ≠ Field.versionMetadata.key) :
    (∀ value : Json, value.truthy = false → value ≠ .object [] →
      c.decode (.object (before ++ (key, value) :: after)) =
        c.decode (.object (before ++ after))) ∧
    (c.defaultKind = none →
      ∃ e, c.decode (.object (before ++ (key, .object []) :: after)) = .error e ∧
        (e = Cause.noTypeInformation.atField key ∨
          c.decode (.object (before ++ after)) = .error e)) ∧
    ∀ default, c.defaultKind = some default →
      c.decode (.object (before ++ (key, .object []) :: after)) =
        c.decode (.object (before ++ (key, taggedOnly default) :: after)) ∧
      ∀ e, c.decode (.object (before ++ (key, .object []) :: after)) = .ok (.entity e) →
        key ∉ Entries.keys after → Entries.get? key e.extraFields = some (taggedOnly default) := by
  refine ⟨fun value hfalsy hvalue => ?_, fun hdefault => ?_, fun default hdefault => ⟨?_, ?_⟩⟩
  · rw [decode_insert_extra htag hkey, decode_tagged_append htag,
      canonicalExtra_of_falsy hversion hfalsy hvalue]
    simp only [ok_bind, Entity.build_extra_of_falsy hfalsy]
  · rw [decode_insert_extra htag hkey, decode_tagged_append htag,
      canonicalExtra_empty_of_none hversion hdefault]
    cases c.readMembers kind.shape before with
    | error e => exact ⟨e, rfl, .inr rfl⟩
    | ok left => exact ⟨_, rfl, .inl rfl⟩
  · rw [decode_insert_extra htag hkey, decode_insert_extra htag hkey,
      canonicalExtra_empty_of_some hversion hdefault, canonicalExtra_taggedOnly hversion]
  · intro e he hlast
    exact get?_extraFields_of_insert htag hkey hlast
      (canonicalExtra_empty_of_some hversion hdefault) rfl he

/-- A dataset with a null, a zero and an empty list in it is the dataset without them; an empty
object is refused, or becomes a folder where untagged objects are folders. -/
theorem decode_falsy_extra_dataset :
    let bare : Codec := ⟨.standard, none⟩
    let named : Codec := ⟨.standard, some .folder⟩
    let before : List (String × Json) := [(Shape.tagKey, .string "dataset-v2")]
    let after : List (String × Json) := [("pk", .ofInt64 7), ("run", .string "5")]
    taggedKind (before ++ after) = .ok (some .dataset) ∧
    "zero" ∉ Shape.dataset.reserved ∧ "zero" ≠ Field.versionMetadata.key ∧
    (∀ value ∈ [Json.null, .ofInt64 0, .array []],
      bare.decode (.object (before ++ ("zero", value) :: after)) =
        bare.decode (.object (before ++ after))) ∧
    bare.decode (.object (before ++ ("zero", .object []) :: after)) =
      .error (Cause.noTypeInformation.atField "zero") ∧
    ∃ e, named.decode (.object (before ++ ("zero", .object []) :: after)) = .ok (.entity e) ∧
      Entries.get? "zero" e.extraFields = some (taggedOnly .folder) := by
  intro bare named before after
  have htag : taggedKind (before ++ after) = .ok (some .dataset) := by rfl
  have hkey : "zero" ∉ Shape.dataset.reserved := by decide
  have hversion : "zero" ≠ Field.versionMetadata.key := by decide
  obtain ⟨hsame, -, -⟩ := decode_falsy_extra bare htag hkey hversion
  obtain ⟨-, -, hkept⟩ := decode_falsy_extra named htag hkey hversion
  refine ⟨htag, hkey, hversion, fun value hvalue => ?_, rfl, ?_⟩
  · simp only [List.mem_cons, List.not_mem_nil, or_false] at hvalue
    rcases hvalue with rfl | rfl | rfl
    · exact hsame _ rfl nofun
    · exact hsame _ rfl nofun
    · exact hsame _ rfl nofun
  · have hread : named.decode (.object (before ++ ("zero", .object []) :: after)) =
        .ok (.entity _) := rfl
    exact ⟨_, hread, (hkept .folder rfl).2 _ hread (by decide)⟩

/-- The empty object is falsy, but as an extra member it makes a folder unreadable. -/
theorem not_forall_falsy_absent :
    ¬ ∀ (c : Codec) (before after : List (String × Json)) (kind : EntityKind) (key : String)
        (value : Json), taggedKind (before ++ after) = .ok (some kind) →
      key ∉ kind.shape.reserved → key ≠ Field.versionMetadata.key → value.truthy = false →
        c.decode (.object (before ++ (key, value) :: after)) =
          c.decode (.object (before ++ after)) := by
  intro h
  have heq := h ⟨.standard, none⟩ [(Shape.tagKey, .string "folder")] [] .folder "x" (.object [])
    rfl (by decide) (by decide) rfl
  cases heq

end Codec

end DataCatalog
