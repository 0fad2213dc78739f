import DataCatalog.Proofs.PackRoundTrip
import DataCatalog.Proofs.Sameness

/-!
# Documents with their members in another order

One document reorders another if they differ in the order of members alone, at any depth, and not
in the order of the members of metadata that is a plain object.  Look-ups then find counterparts, and
what is read of a member without going into it is the same: the kind of an object, a metadata entry,
a pair, a text and a number.  So is metadata as a whole, whose order is that of an array or of
members that stay in order.
-/

namespace DataCatalog

/-! ## Counterparts -/

/-- Both lists have the same keys, each once, and related values under them. -/
structure Entries.Matches (P : String → Json → Json → Prop)
    (members others : List (String × Json)) : Prop where
  distinct : (keys members).Nodup
  distinctOthers : (keys others).Nodup
  length_eq : members.length = others.length
  counterpart : ∀ member ∈ members, ∃ other, (member.1, other) ∈ others ∧ P member.1 member.2 other

namespace Entries.Matches

variable {P : String → Json → Json → Prop} {members others : List (String × Json)}

theorem keys_perm (h : Matches P members others) : (keys members).Perm (keys others) := by
  have hsubset : keys members ⊆ keys others := by
    intro key hkey
    obtain ⟨member, hmem, rfl⟩ := List.mem_map.mp hkey
    obtain ⟨other, hother, -⟩ := h.counterpart member hmem
    exact List.mem_map.mpr ⟨_, hother, rfl⟩
  have hsubperm : (keys members).Subperm (keys others) :=
    List.subperm_of_subset h.distinct hsubset
  refine hsubperm.perm_of_length_le ?_
  simp [keys, h.length_eq]

/-- The counterpart of a member is the other member under its key. -/
theorem related (h : Matches P members others) {key : String} {x y : Json}
    (hx : (key, x) ∈ members) (hy : (key, y) ∈ others) : P key x y := by
  obtain ⟨other, hother, hP⟩ := h.counterpart (key, x) hx
  have hsame : some y = some other := by
    rw [← (get?_eq_some_iff h.distinctOthers).mpr hy,
      ← (get?_eq_some_iff h.distinctOthers).mpr hother]
  cases hsame
  exact hP

theorem exists_left (h : Matches P members others) {key : String} {y : Json}
    (hy : (key, y) ∈ others) : ∃ x, (key, x) ∈ members ∧ P key x y := by
  have hkey : key ∈ keys members := h.keys_perm.symm.subset (mem_keys_of_mem hy)
  obtain ⟨⟨_, x⟩, hx, rfl⟩ := List.mem_map.mp hkey
  exact ⟨x, hx, h.related hx hy⟩

theorem get?_cases (h : Matches P members others) (key : String) :
    (get? key members = none ∧ get? key others = none) ∨
      ∃ x y, get? key members = some x ∧ get? key others = some y ∧ P key x y := by
  cases hx : get? key members with
  | none =>
      have hkey : key ∉ keys others := fun hmem =>
        get?_eq_none_iff.mp hx (h.keys_perm.symm.subset hmem)
      exact .inl ⟨rfl, get?_eq_none_iff.mpr hkey⟩
  | some x =>
      obtain ⟨y, hy, hP⟩ := h.counterpart (key, x) (mem_of_get? hx)
      exact .inr ⟨x, y, rfl, (get?_eq_some_iff h.distinctOthers).mpr hy, hP⟩

end Entries.Matches

/-! ## Reordered documents -/

namespace Json

/-- An object under one of these keys keeps the order of its members. -/
def orderedKeys : List String :=
  [Field.metadata.key, Field.versionMetadata.key]

mutual

/-- The other value is the first one but for the order of members. -/
def Reorders : Json → Json → Prop
  | .array items, other => ∃ others, other = .array others ∧ ReordersItems items others
  | .object members, other =>
    ∃ others, other = .object others ∧ members.length = others.length ∧
      ReordersMembers members others
  | value, other => other = value
termination_by structural value => value

def ReordersItems : List Json → List Json → Prop
  | [], others => others = []
  | item :: rest, others =>
    ∃ first more, others = first :: more ∧ Reorders item first ∧ ReordersItems rest more
termination_by structural items => items

/-- Each member has its counterpart among the others. -/
def ReordersMembers : List (String × Json) → List (String × Json) → Prop
  | [], _ => True
  | (key, value) :: rest, others =>
    (∃ other, (key, other) ∈ others ∧
      if key ∈ orderedKeys then ReordersMetadata value other else Reorders value other) ∧
    ReordersMembers rest others
termination_by structural members => members

/-- As above, and the members of the value itself are in the same order. -/
def ReordersMetadata : Json → Json → Prop
  | .array items, other => ∃ others, other = .array others ∧ ReordersItems items others
  | .object members, other => ∃ others, other = .object others ∧ ReordersInOrder members others
  | value, other => other = value
termination_by structural value => value

def ReordersInOrder : List (String × Json) → List (String × Json) → Prop
  | [], others => others = []
  | (key, value) :: rest, others =>
    ∃ other more, others = (key, other) :: more ∧
      (if key ∈ orderedKeys then ReordersMetadata value other else Reorders value other) ∧
      ReordersInOrder rest more
termination_by structural members => members

end

/-- The values of counterparts under a key. -/
def ReordersUnder (key : String) (value other : Json) : Prop :=
  if key ∈ orderedKeys then ReordersMetadata value other else Reorders value other

theorem reordersItems_iff {items others : List Json} :
    ReordersItems items others ↔ List.Forall₂ Reorders items others := by
  induction items generalizing others with
  | nil => simp [ReordersItems]
  | cons item rest ih =>
      rw [ReordersItems, List.forall₂_cons_left_iff]
      constructor
      · rintro ⟨first, more, rfl, hfirst, hmore⟩
        exact ⟨first, more, hfirst, ih.mp hmore, rfl⟩
      · rintro ⟨first, more, hfirst, hmore, rfl⟩
        exact ⟨first, more, rfl, hfirst, ih.mpr hmore⟩

theorem reordersMembers_iff {members others : List (String × Json)} :
    ReordersMembers members others ↔
      ∀ member ∈ members, ∃ other, (member.1, other) ∈ others ∧
        ReordersUnder member.1 member.2 other := by
  induction members with
  | nil => simp [ReordersMembers]
  | cons member rest ih => rw [ReordersMembers, List.forall_mem_cons, ih]; rfl

theorem reordersInOrder_iff {members others : List (String × Json)} :
    ReordersInOrder members others ↔
      List.Forall₂ (fun member other => other.1 = member.1 ∧
        ReordersUnder member.1 member.2 other.2) members others := by
  induction members generalizing others with
  | nil => simp [ReordersInOrder]
  | cons member rest ih =>
      rw [ReordersInOrder, List.forall₂_cons_left_iff]
      constructor
      · rintro ⟨value, more, rfl, hvalue, hmore⟩
        exact ⟨(member.1, value), more, ⟨rfl, hvalue⟩, ih.mp hmore, rfl⟩
      · rintro ⟨⟨_, value⟩, more, ⟨rfl, hvalue⟩, hmore, rfl⟩
        exact ⟨value, more, rfl, hvalue, ih.mpr hmore⟩

/-- The objects hold each other's counterparts. -/
theorem matches_of_reorders {members others : List (String × Json)}
    (hmembers : (object members).WellFormed) (hothers : (object others).WellFormed)
    (h : (object members).Reorders (.object others)) :
    Entries.Matches ReordersUnder members others := by
  obtain ⟨_, heq, hlength, hcounterparts⟩ := h
  cases heq
  exact ⟨hmembers.1, hothers.1, hlength, reordersMembers_iff.mp hcounterparts⟩

/-- The values are equal, or neither is plain. -/
def SameForm (x y : Json) : Prop :=
  y = x ∨ ¬x.Plain ∧ ¬y.Plain

theorem sameForm_of_reorders {x y : Json} (h : Reorders x y) : SameForm x y := by
  cases x with
  | array items =>
      obtain ⟨others, rfl, -⟩ := h
      exact .inr ⟨id, id⟩
  | object members =>
      obtain ⟨others, rfl, -⟩ := h
      exact .inr ⟨id, id⟩
  | null => exact .inl h
  | bool value => exact .inl h
  | number value => exact .inl h
  | string value => exact .inl h

theorem sameForm_of_reordersMetadata {x y : Json} (h : ReordersMetadata x y) : SameForm x y := by
  cases x with
  | array items =>
      obtain ⟨others, rfl, -⟩ := h
      exact .inr ⟨id, id⟩
  | object members =>
      obtain ⟨others, rfl, -⟩ := h
      exact .inr ⟨id, id⟩
  | null => exact .inl h
  | bool value => exact .inl h
  | number value => exact .inl h
  | string value => exact .inl h

theorem sameForm_of_reordersUnder {key : String} {x y : Json} (h : ReordersUnder key x y) :
    SameForm x y := by
  unfold ReordersUnder at h
  split at h
  · exact sameForm_of_reordersMetadata h
  · exact sameForm_of_reorders h

theorem not_plain_cases {x : Json} (h : ¬x.Plain) :
    (∃ items, x = .array items) ∨ ∃ members, x = .object members := by
  cases x with
  | array items => exact .inl ⟨items, rfl⟩
  | object members => exact .inr ⟨members, rfl⟩
  | null => exact absurd trivial h
  | bool value => exact absurd trivial h
  | number value => exact absurd trivial h
  | string value => exact absurd trivial h

end Json

/-! ## Readers that do not go into a value -/

namespace Scalar

variable {x y : Json}

theorem ofJson?_of_not_plain (kind : ScalarKind) (h : ¬x.Plain) : ofJson? kind x = none := by
  rcases Json.not_plain_cases h with ⟨items, rfl⟩ | ⟨members, rfl⟩
  · cases kind <;> rfl
  · cases kind <;> rfl

theorem infer?_of_not_plain (h : ¬x.Plain) : infer? x = none := by
  rcases Json.not_plain_cases h with ⟨items, rfl⟩ | ⟨members, rfl⟩
  · rfl
  · rfl

theorem ofJson?_congr (h : x.SameForm y) (kind : ScalarKind) : ofJson? kind y = ofJson? kind x := by
  rcases h with rfl | ⟨hx, hy⟩
  · rfl
  · rw [ofJson?_of_not_plain kind hx, ofJson?_of_not_plain kind hy]

theorem infer?_congr (h : x.SameForm y) : infer? y = infer? x := by
  rcases h with rfl | ⟨hx, hy⟩
  · rfl
  · rw [infer?_of_not_plain hx, infer?_of_not_plain hy]

end Scalar

namespace Codec

variable {c : Codec} {members others : List (String × Json)} {x y : Json}

/-- Under the key both objects have the same value, or values that are not plain. -/
def AlikeUnder (key : String) (members others : List (String × Json)) : Prop :=
  Entries.get? key others = Entries.get? key members ∨
    ∃ x y, Entries.get? key members = some x ∧ Entries.get? key others = some y ∧
      ¬x.Plain ∧ ¬y.Plain

theorem alikeUnder_of_matches (h : Entries.Matches Json.ReordersUnder members others)
    (key : String) : AlikeUnder key members others := by
  rcases h.get?_cases key with ⟨hx, hy⟩ | ⟨x, y, hx, hy, hvalue⟩
  · exact .inl (hy.trans hx.symm)
  · rcases Json.sameForm_of_reordersUnder hvalue with rfl | ⟨hxp, hyp⟩
    · exact .inl (hy.trans hx.symm)
    · exact .inr ⟨x, y, hx, hy, hxp, hyp⟩

theorem taggedKind_of_not_plain (hx : Entries.get? Shape.tagKey members = some x)
    (h : ¬x.Plain) : taggedKind members = .error (Cause.tagNotString.atField Shape.tagKey) := by
  rcases Json.not_plain_cases h with ⟨items, rfl⟩ | ⟨inner, rfl⟩
  · simp only [taggedKind, hx]
  · simp only [taggedKind, hx]

theorem typeTag_of_not_plain (hx : Entries.get? "type" members = some x) (h : ¬x.Plain) :
    typeTag members = "" := by
  rcases Json.not_plain_cases h with ⟨items, rfl⟩ | ⟨inner, rfl⟩
  · simp only [typeTag, hx]
  · simp only [typeTag, hx]

theorem knowsType_of_not_plain (hx : Entries.get? "type" members = some x) (h : ¬x.Plain) :
    c.knowsType members = false := by
  rcases Json.not_plain_cases h with ⟨items, rfl⟩ | ⟨inner, rfl⟩
  · simp only [knowsType, hx]
  · simp only [knowsType, hx]

theorem taggedKind_congr (h : AlikeUnder Shape.tagKey members others) :
    taggedKind others = taggedKind members := by
  rcases h with heq | ⟨x, y, hx, hy, hxp, hyp⟩
  · rw [taggedKind, heq, taggedKind]
  · rw [taggedKind_of_not_plain hx hxp, taggedKind_of_not_plain hy hyp]

theorem typeTag_congr (h : AlikeUnder "type" members others) :
    typeTag others = typeTag members := by
  rcases h with heq | ⟨x, y, hx, hy, hxp, hyp⟩
  · rw [typeTag, heq, typeTag]
  · rw [typeTag_of_not_plain hx hxp, typeTag_of_not_plain hy hyp]

theorem knowsType_congr (h : AlikeUnder "type" members others) :
    c.knowsType others = c.knowsType members := by
  rcases h with heq | ⟨x, y, hx, hy, hxp, hyp⟩
  · rw [knowsType, heq, knowsType]
  · rw [knowsType_of_not_plain hx hxp, knowsType_of_not_plain hy hyp]

theorem isSome_congr {key : String} (h : AlikeUnder key members others) :
    (Entries.get? key others).isSome = (Entries.get? key members).isSome := by
  rcases h with heq | ⟨x, y, hx, hy, -, -⟩
  · rw [heq]
  · rw [hx, hy]
    rfl

theorem isTriple_congr (h : ∀ key, AlikeUnder key members others) :
    isTriple others = isTriple members := by
  simp only [isTriple, List.all_cons, isSome_congr (h _)]

/-- What an object is does not depend on what is in its arrays and objects. -/
theorem role_eq_of_alike (h : ∀ key, AlikeUnder key members others) :
    c.role others = c.role members := by
  rw [role, role, taggedKind_congr (h _), isTriple_congr h, knowsType_congr (h _)]

theorem readTriple_of_not_plain (hx : Entries.get? "key" members = some x) (h : ¬x.Plain) :
    c.readTriple members = .error (Cause.metadataKeyNotString.atField "key") := by
  rcases Json.not_plain_cases h with ⟨items, rfl⟩ | ⟨inner, rfl⟩
  · simp only [readTriple, hx]
  · simp only [readTriple, hx]

theorem readInteger_of_not_plain (h : ¬x.Plain) (field : String) :
    readInteger field x = .error ((Cause.expectedInteger x).atField field) := by
  rcases Json.not_plain_cases h with ⟨items, rfl⟩ | ⟨inner, rfl⟩
  · rfl
  · rfl

theorem readText_of_not_plain (h : ¬x.Plain) (field : String) :
    readText field x = .error ((Cause.expectedString x).atField field) := by
  rcases Json.not_plain_cases h with ⟨items, rfl⟩ | ⟨inner, rfl⟩
  · rfl
  · rfl

/-- The values may differ in what is in them, and then neither is read. -/
theorem readTriple_agrees (h : ∀ key, AlikeUnder key members others) :
    Agrees Eq (c.readTriple members) (c.readTriple others) := by
  have hvalue : ((Entries.get? "value" members).getD .null).SameForm
      ((Entries.get? "value" others).getD .null) := by
    rcases h "value" with heq | ⟨x, y, hx, hy, hxp, hyp⟩
    · exact .inl (by rw [heq])
    · rw [hx, hy]
      exact .inr ⟨hxp, hyp⟩
  rcases h "key" with heq | ⟨x, y, hx, hy, hxp, hyp⟩
  · unfold readTriple
    rw [heq, typeTag_congr (h "type")]
    split
    · split
      · trivial
      · next kind _ =>
          simp only [Scalar.ofJson?_congr hvalue kind]
          split
          · rfl
          · trivial
    · trivial
  · rw [readTriple_of_not_plain hx hxp, readTriple_of_not_plain hy hyp]
    trivial

theorem readPair_agrees (h : x.SameForm y) (field key : String) :
    Agrees Eq (readPair field key x) (readPair field key y) := by
  rw [readPair, readPair, Scalar.infer?_congr h]
  split
  · rfl
  · trivial

theorem readInteger_agrees (h : x.SameForm y) (field : String) :
    Agrees Eq (readInteger field x) (readInteger field y) := by
  rcases h with rfl | ⟨hxp, hyp⟩
  · exact .of_eq rfl fun _ _ => rfl
  · rw [readInteger_of_not_plain hxp, readInteger_of_not_plain hyp]
    trivial

theorem readText_agrees (h : x.SameForm y) (field : String) :
    Agrees Eq (readText field x) (readText field y) := by
  rcases h with rfl | ⟨hxp, hyp⟩
  · exact .of_eq rfl fun _ _ => rfl
  · rw [readText_of_not_plain hxp, readText_of_not_plain hyp]
    trivial

/-! ## Metadata -/

theorem readEntry_array_of_ne {field : String} {items : List Json}
    (h : ∀ key value, items ≠ [.string key, value]) :
    c.readEntry field (.array items) = .error (Cause.malformedMetadata.atField field) := by
  unfold readEntry
  split
  · next heq => cases heq
  · next heq => exact absurd (Json.array.inj heq) (h _ _)
  · rfl

/-- A pair shows its key by itself; other arrays are not read. -/
theorem readEntry_array_agrees (field : String) {items others : List Json}
    (h : List.Forall₂ Json.SameForm items others) :
    Agrees Eq (c.readEntry field (.array items)) (c.readEntry field (.array others)) := by
  by_cases hpair : ∃ key value, items = [.string key, value]
  · obtain ⟨key, value, rfl⟩ := hpair
    cases h with
    | cons hkey hrest =>
      cases hrest with
      | cons hvalue hnil =>
        cases hnil
        rcases hkey with rfl | ⟨hplain, -⟩
        · exact readPair_agrees hvalue field key
        · exact absurd trivial hplain
  · have hother : ∀ key value, others ≠ [.string key, value] := by
      rintro key value rfl
      cases h with
      | cons hkey hrest =>
        cases hrest with
        | cons hvalue hnil =>
          cases hnil
          rcases hkey with rfl | ⟨-, hplain⟩
          · exact hpair ⟨key, _, rfl⟩
          · exact absurd trivial hplain
    rw [readEntry_array_of_ne fun key value heq => hpair ⟨key, value, heq⟩,
      readEntry_array_of_ne hother]
    trivial

theorem readEntry_agrees (field : String) (hx : x.WellFormed) (hy : y.WellFormed)
    (h : x.Reorders y) : Agrees Eq (c.readEntry field x) (c.readEntry field y) := by
  cases x with
  | array items =>
      obtain ⟨others, rfl, hitems⟩ := h
      apply readEntry_array_agrees
      exact (Json.reordersItems_iff.mp hitems).imp fun _ _ => Json.sameForm_of_reorders
  | object members =>
      obtain ⟨others, rfl, -⟩ := id h
      have halike := alikeUnder_of_matches (Json.matches_of_reorders hx hy h)
      rw [readEntry, readEntry, isTriple_congr halike]
      split
      · exact readTriple_agrees halike
      · trivial
  | null =>
      cases h
      trivial
  | bool value =>
      cases h
      trivial
  | number value =>
      cases h
      trivial
  | string value =>
      cases h
      trivial

/-- Metadata is read alike, because its entries are in the same order. -/
theorem readMetadata_agrees (field : String) (hx : x.WellFormed) (hy : y.WellFormed)
    (h : x.ReordersMetadata y) : Agrees Eq (c.readMetadata field x) (c.readMetadata field y) := by
  have hlist : ∀ {xs ys : List (String × Scalar)}, List.Forall₂ Eq xs ys →
      OrderedMap.ofList xs = OrderedMap.ofList ys := by
    intro xs ys heq
    rw [List.forall₂_eq_eq_eq] at heq
    rw [heq]
  cases x with
  | array items =>
      obtain ⟨others, rfl, hitems⟩ := h
      have hentries : List.Forall₂ (fun item other =>
          Agrees Eq (c.readEntry field item) (c.readEntry field other)) items others := by
        rw [Json.wellFormed_array_iff] at hx hy
        refine forall₂_imp_of_mem (Json.reordersItems_iff.mp hitems) ?_
        exact fun item hitem other hother => readEntry_agrees field (hx item hitem) (hy other hother)
      exact (Agrees.mapM hentries).map fun _ _ => hlist
  | object members =>
      obtain ⟨others, rfl, hmembers⟩ := h
      have hentries : List.Forall₂ (fun member other =>
          Agrees Eq (readPair field member.1 member.2) (readPair field other.1 other.2))
          members others := by
        refine (Json.reordersInOrder_iff.mp hmembers).imp ?_
        rintro ⟨key, value⟩ ⟨_, other⟩ ⟨rfl, hvalue⟩
        exact readPair_agrees (Json.sameForm_of_reordersUnder hvalue) field _
      exact (Agrees.mapM hentries).map fun _ _ => hlist
  | null =>
      cases h
      rfl
  | bool value =>
      cases h
      trivial
  | number value =>
      cases h
      trivial
  | string value =>
      cases h
      trivial

end Codec

end DataCatalog
