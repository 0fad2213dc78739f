import DataCatalog.Proofs.MetadataForms
import DataCatalog.Proofs.MetadataHistory
import DataCatalog.Proofs.Scaling
import DataCatalog.Proofs.Unwritable

/-!
# Whole numbers in metadata

Documents hold whole numbers up to `2 ^ 64`, and scalars only those below `2 ^ 63`.  A metadata entry
that says it is a whole number is refused beyond that.  An entry that has no tag becomes a double
instead, which has the same value for multiples of 2048 only, because doubles of this size lie 2048
apart.  So the forms of metadata agree on the whole numbers below `2 ^ 63` and on no others.
-/

namespace DataCatalog

/-! ## The values of doubles -/

namespace Binary64

/-- The value of a finite double, in units of the least positive one. -/
def signedUnits? : Binary64 → Option Int
  | .finite x => some (if x.negative then -(x.units : Int) else x.units)
  | _ => none

theorem wholeUnits_eq_iff {n : Nat} : wholeUnits n = n * one ↔ Exact (n * one) := by
  constructor
  · intro h
    have hexact : Exact (wholeUnits n) := exact_roundUnits _ _
    rwa [h] at hexact
  · intro h
    exact roundUnits_of_exact h

/-- Around these numbers, doubles lie 2048 apart. -/
theorem exact_mul_pow_iff {n : Nat} (hlower : 2 ^ 63 ≤ n) (hupper : n < 2 ^ 64) (shift : Nat) :
    Exact (n * Nat.pow 2 shift) ↔ 2048 ∣ n := by
  have hpos : n * 2 ^ shift ≠ 0 := by positivity
  have hlog : (n * 2 ^ shift).log2 = 63 + shift := by
    rw [Nat.log2_eq_iff hpos, Nat.add_right_comm, Nat.pow_add, Nat.pow_add]
    constructor
    · exact Nat.mul_le_mul_right _ hlower
    · exact Nat.mul_lt_mul_of_pos_right hupper (Nat.two_pow_pos shift)
  have hspacing : 2 ^ ((n * 2 ^ shift).log2 - 52) = 2048 * 2 ^ shift := by
    rw [hlog, show 63 + shift - 52 = 11 + shift by omega, Nat.pow_add]
  simp only [Exact, Nat.pow_eq]
  rw [hspacing, ← Nat.dvd_iff_mod_eq_zero, Nat.mul_dvd_mul_iff_right (Nat.two_pow_pos shift)]

theorem exact_mul_one_iff {n : Nat} (hlower : 2 ^ 63 ≤ n) (hupper : n < 2 ^ 64) :
    Exact (n * one) ↔ 2048 ∣ n := by
  unfold one
  -- The power is never computed if the exponent is a variable.
  generalize 1074 = shift
  exact exact_mul_pow_iff hlower hupper shift

theorem wholeUnits_half_word : wholeUnits (2 ^ 63) = 2 ^ 63 * one := by
  decide +kernel

-- Reduction must not run into the powers of two behind these two names.
attribute [local irreducible] one limit

theorem ofInt_of_word {n : Nat} (h : n < 2 ^ 64) :
    ∃ x : Finite, ofInt n = .finite x ∧ x.units = wholeUnits n ∧ x.negative = false := by
  have hbounded : wholeUnits n < limit := (wholeUnits_mono h.le).trans_lt wholeUnits_word_lt
  refine ⟨⟨decide ((n : Int) < 0), wholeUnits n, exact_roundUnits _ _, hbounded⟩, ?_, rfl, ?_⟩
  · rw [ofInt, ofRatio, Int.natAbs_natCast]
    exact dif_pos hbounded
  · simp

theorem signedUnits?_ofInt {n : Nat} (hlower : 2 ^ 63 ≤ n) (hupper : n < 2 ^ 64) :
    signedUnits? (ofInt n) = some (n * one : Int) ↔ 2048 ∣ n := by
  obtain ⟨x, hx, hunits, hsign⟩ := ofInt_of_word hupper
  rw [← exact_mul_one_iff hlower hupper, ← wholeUnits_eq_iff, hx, signedUnits?, hsign, hunits]
  simp only [Bool.false_eq_true, if_false, Option.some.injEq]
  exact_mod_cast Iff.rfl

theorem toInt64?_ofInt {n : Nat} (hlower : 2 ^ 63 ≤ n) (hupper : n < 2 ^ 64) :
    toInt64? (ofInt n) = none := by
  obtain ⟨x, hx, hunits, hsign⟩ := ofInt_of_word hupper
  -- Rounding is monotone and keeps `2 ^ 63`, so it does not lead back below it.
  have hwhole : 2 ^ 63 ≤ x.units / one := by
    rw [Nat.le_div_iff_mul_le one_pos, hunits, ← wholeUnits_half_word]
    exact wholeUnits_mono hlower
  have htruncate : x.truncate = (x.units / one : Nat) := by
    rw [Finite.truncate, hsign]
    rfl
  rw [hx, toInt64?, htruncate]
  exact if_neg (by omega)

end Binary64

/-- The scalar is this number, without any rounding. -/
def Scalar.IsExactly (n : Int) : Scalar → Prop
  | .integer i => i.toInt = n
  | .decimal x => x.signedUnits? = some (n * Binary64.one)
  | .text _ => False

namespace Codec

/-! ## The forms of a metadata entry -/

/-- An entry with its type tag, a pair of key and value, or a member of a plain object. -/
inductive EntryForm where
  | triple
  | pair
  | plain
  deriving DecidableEq

/-- The metadata `value` has an entry of this form for the key and the number, after the entries of
`before` and before those of `after`. -/
inductive EntryForm.Gives (key : String) (number : Json.Number) :
    EntryForm → (value before after : Json) → Prop
  | triple {before after members} (hkey : Entries.get? "key" members = some (.string key))
      (hvalue : Entries.get? "value" members = some (.number number))
      (htype : Entries.get? "type" members = some (.string "integer")) :
      Gives key number .triple (.array (before ++ .object members :: after)) (.array before)
        (.array after)
  | pair {before after} :
      Gives key number .pair (.array (before ++ .array [.string key, .number number] :: after))
        (.array before) (.array after)
  | plain {before after} :
      Gives key number .plain (.object (before ++ (key, .number number) :: after))
        (.object before) (.object after)

/-- What a whole number is read as in an entry of this form. -/
def EntryForm.scalar? (form : EntryForm) (n : Int) : Option Scalar :=
  if n < 2 ^ 63 then some (.integer (.ofInt n))
  else if form = .triple then none else some (.decimal (.ofInt n))

variable {c : Codec} {field key : String} {n : Int} {lower : -0x8000000000000000 ≤ n}
  {upper : n < 0x10000000000000000} {form : EntryForm} {value before after : Json}

theorem ofJson?_whole :
    Scalar.ofJson? .integer (.number (.integer n lower upper)) = EntryForm.triple.scalar? n := by
  by_cases hsmall : n < 0x8000000000000000
  · simp [Scalar.ofJson?, Json.Number.toInt64?, EntryForm.scalar?, hsmall]
  · have hnone : (Binary64.ofInt n).toInt64? = none := by
      obtain ⟨m, rfl⟩ := Int.eq_ofNat_of_zero_le (by omega : 0 ≤ n)
      exact Binary64.toInt64?_ofInt (by omega) (by omega)
    simp [Scalar.ofJson?, Json.Number.toInt64?, Json.Number.toBinary64, EntryForm.scalar?, hsmall,
      hnone]

theorem infer?_whole (h : form ≠ .triple) :
    Scalar.infer? (.number (.integer n lower upper)) = form.scalar? n := by
  by_cases hsmall : n < 0x8000000000000000
  · simp [Scalar.infer?, Json.Number.toInt64?, EntryForm.scalar?, hsmall]
  · simp [Scalar.infer?, Json.Number.toInt64?, Json.Number.toBinary64, EntryForm.scalar?, hsmall, h]

theorem EntryForm.isSome_scalar?_iff :
    (form.scalar? n).isSome = true ↔ (form = .triple → n < 2 ^ 63) := by
  by_cases hsmall : n < 0x8000000000000000
  · simp [scalar?, hsmall]
  · by_cases htriple : form = .triple <;> simp [scalar?, hsmall, htriple]

/-- A whole number is read as it is, unless it is rounded to a double. -/
theorem EntryForm.isExactly_iff {s : Scalar} (lower : -0x8000000000000000 ≤ n)
    (upper : n < 0x10000000000000000) (h : form.scalar? n = some s) :
    s.IsExactly n ↔ n < 2 ^ 63 ∨ 2048 ∣ n := by
  unfold scalar? at h
  split_ifs at h with hsmall htriple
  · cases h
    have hvalue : (Int64.ofInt n).toInt = n := Int64.toInt_ofInt_of_le lower hsmall
    exact iff_of_true hvalue (.inl hsmall)
  · cases h
    obtain ⟨m, rfl⟩ := Int.eq_ofNat_of_zero_le (by omega : 0 ≤ n)
    have hexact := Binary64.signedUnits?_ofInt (n := m) (by omega) (by omega)
    rw [Scalar.IsExactly, hexact]
    omega

/-! ## Reading metadata -/

theorem readEntry_triple_eq_ok_iff (hstandard : c.types = .standard)
    {members : List (String × Json)} {entry : String × Scalar}
    (hkey : Entries.get? "key" members = some (.string key))
    (hvalue : Entries.get? "value" members = some (.number (.integer n lower upper)))
    (htype : Entries.get? "type" members = some (.string "integer")) :
    c.readEntry field (.object members) = .ok entry ↔
      ∃ s, EntryForm.triple.scalar? n = some s ∧ entry = (key, s) := by
  have htriple : isTriple members = true := by simp [isTriple, hkey, hvalue, htype]
  have hkind : c.types.kindFor? (typeTag members) = some .integer := by
    simp only [typeTag, htype, hstandard]
    decide
  simp only [readEntry, htriple, if_true, readTriple, hkey, hkind, hvalue, Option.getD_some,
    ofJson?_whole]
  cases EntryForm.triple.scalar? n <;> simp [eq_comm]

theorem readPair_eq_ok_iff (hform : form ≠ .triple) {entry : String × Scalar} :
    readPair field key (.number (.integer n lower upper)) = .ok entry ↔
      ∃ s, form.scalar? n = some s ∧ entry = (key, s) := by
  simp only [readPair, infer?_whole hform]
  cases form.scalar? n <;> simp [eq_comm]

theorem mapM_split_eq_ok_iff {α : Type} {read : α → Except Error (String × Scalar)} {xs ys : List α}
    {x : α} {pairs : List (String × Scalar)}
    (hx : ∀ entry, read x = .ok entry ↔ ∃ s, form.scalar? n = some s ∧ entry = (key, s)) :
    (xs ++ x :: ys).mapM read = .ok pairs ↔
      ∃ left s right, xs.mapM read = .ok left ∧ form.scalar? n = some s ∧
        ys.mapM read = .ok right ∧ pairs = left ++ (key, s) :: right := by
  rw [List.mapM_append, List.mapM_cons]
  simp only [bind_eq_ok_iff, pure, Except.pure, Except.ok.injEq, hx]
  constructor
  · rintro ⟨left, hleft, _, ⟨_, ⟨s, hs, rfl⟩, right, hright, rfl⟩, rfl⟩
    exact ⟨left, s, right, hleft, hs, hright, rfl⟩
  · rintro ⟨left, s, right, hleft, hs, hright, rfl⟩
    exact ⟨left, hleft, _, ⟨_, ⟨s, hs, rfl⟩, right, hright, rfl⟩, rfl⟩

theorem EntryForm.Gives.metadataPairs_eq_ok_iff (hstandard : c.types = .standard)
    (h : form.Gives key (.integer n lower upper) value before after)
    {pairs : List (String × Scalar)} :
    c.metadataPairs field value = .ok pairs ↔
      ∃ left s right, c.metadataPairs field before = .ok left ∧ form.scalar? n = some s ∧
        c.metadataPairs field after = .ok right ∧ pairs = left ++ (key, s) :: right := by
  cases h with
  | triple hkey hvalue htype =>
      exact mapM_split_eq_ok_iff fun _ =>
        readEntry_triple_eq_ok_iff hstandard hkey hvalue htype
  | pair => exact mapM_split_eq_ok_iff fun _ => readPair_eq_ok_iff (by decide)
  | plain => exact mapM_split_eq_ok_iff fun _ => readPair_eq_ok_iff (by decide)

/-- No entry of this metadata would replace that of the key. -/
def Spares (c : Codec) (field key : String) (after : Json) : Prop :=
  ∀ pairs, c.metadataPairs field after = .ok pairs → key ∉ Entries.keys pairs

theorem get?_insertAll_of_notMem {m : Metadata} {pairs : List (String × Scalar)}
    (h : key ∉ Entries.keys pairs) : (m.insertAll pairs).get? key = m.get? key := by
  induction pairs generalizing m with
  | nil => rfl
  | cons pair rest ih =>
      simp only [Entries.keys_cons, List.mem_cons, not_or] at h
      have hrest : (m.insertAll (pair :: rest)).get? key = (m.insert pair.1 pair.2).get? key :=
        ih h.2
      rw [hrest, OrderedMap.get?_insert_of_ne m h.1]

theorem get?_ofList_of_notMem {left right : List (String × Scalar)} {s : Scalar}
    (h : key ∉ Entries.keys right) :
    (OrderedMap.ofList (left ++ (key, s) :: right)).get? key = some s := by
  have hsplit : OrderedMap.ofList (left ++ (key, s) :: right) =
      ((OrderedMap.ofList left).insert key s).insertAll right := by
    simp [OrderedMap.ofList, OrderedMap.insertAll]
  rw [hsplit, get?_insertAll_of_notMem h, OrderedMap.get?_insert_self]

/-- The entry fails exactly if it says that it is a whole number and the number is too large. -/
theorem EntryForm.Gives.readMetadata_succeeds_iff (hstandard : c.types = .standard)
    (h : form.Gives key (.integer n lower upper) value before after) :
    Succeeds (c.readMetadata field value) ↔
      Succeeds (c.readMetadata field before) ∧ Succeeds (c.readMetadata field after) ∧
        (form = .triple → n < 2 ^ 63) := by
  simp only [readMetadata_eq_map, Succeeds.map_iff, ← EntryForm.isSome_scalar?_iff,
    Option.isSome_iff_exists]
  simp only [Succeeds, h.metadataPairs_eq_ok_iff hstandard]
  constructor
  · rintro ⟨_, left, s, right, hleft, hs, hright, -⟩
    exact ⟨⟨left, hleft⟩, ⟨right, hright⟩, ⟨s, hs⟩⟩
  · rintro ⟨⟨left, hleft⟩, ⟨right, hright⟩, ⟨s, hs⟩⟩
    exact ⟨_, left, s, right, hleft, hs, hright, rfl⟩

theorem EntryForm.Gives.exists_scalar (hstandard : c.types = .standard)
    (h : form.Gives key (.integer n lower upper) value before after)
    (hspares : c.Spares field key after) {m : Metadata}
    (hread : c.readMetadata field value = .ok m) :
    ∃ s, m.get? key = some s ∧ (s.IsExactly n ↔ n < 2 ^ 63 ∨ 2048 ∣ n) := by
  rw [readMetadata_eq_map, map_eq_ok_iff] at hread
  obtain ⟨pairs, hpairs, rfl⟩ := hread
  obtain ⟨left, s, right, -, hs, hright, rfl⟩ := (h.metadataPairs_eq_ok_iff hstandard).mp hpairs
  exact ⟨s, get?_ofList_of_notMem (hspares right hright), EntryForm.isExactly_iff lower upper hs⟩

end Codec

/-! ## Metadata of entries -/

def Entity.metadata? : Entity → Option Metadata
  | .dataset d => d.metadata?
  | .folder r => r.metadata?
  | .group r => r.metadata?
  | .location r => r.metadata?

theorem Entity.metadata?_withMetadata (e : Entity) (m : Metadata) :
    (e.withMetadata m).metadata? = if Metadata.truthy m then some m else none := by
  cases e with
  | dataset d =>
      exact Record.get?_set_self d.toRecord .metadata m (EntityKind.metadata_mem_fields .dataset)
  | folder r => exact Record.get?_set_self r .metadata m _
  | group r => exact Record.get?_set_self r .metadata m _
  | location r => exact Record.get?_set_self r .metadata m _

theorem Metadata.truthy_of_get? {m : Metadata} {key : String} {s : Scalar}
    (h : m.get? key = some s) : Metadata.truthy m = true := by
  have hmem := Entries.mem_of_get? h
  cases hentries : m.entries with
  | nil => simp [hentries] at hmem
  | cons entry rest => simp [Metadata.truthy, OrderedMap.isEmpty, hentries]

namespace Codec

variable {c : Codec} {left right : List (String × Json)} {value : Json} {kind : EntityKind}

theorem decode_metadata_succeeds_iff (hrole : c.role (left ++ right) = .ok (.entity kind)) :
    Succeeds (c.decode (.object (left ++ (Field.metadata.key, value) :: right))) ↔
      Succeeds (c.decode (.object (left ++ right))) ∧
        Succeeds (c.readMetadata Field.metadata.key value) := by
  have hwith : c.role (left ++ (Field.metadata.key, value) :: right) = .ok (.entity kind) := by
    rw [role_append_metadata, hrole]
  have hmember : Succeeds (c.readMember kind.shape Field.metadata.key value) ↔
      Succeeds (c.readMetadata Field.metadata.key value) := by
    rw [readMember_metadata kind.metadata_mem_fields]
    exact Succeeds.map_iff
  rw [decode_object_of_entity hrole, decode_object_of_entity hwith, Succeeds.map_iff,
    Succeeds.map_iff, readMembers_succeeds_iff, readMembers_succeeds_iff]
  simp only [List.forall_mem_append, List.forall_mem_cons, hmember]
  tauto

theorem exists_metadata_of_decode (hkey : Field.metadata.key ∉ Entries.keys (left ++ right))
    (hrole : c.role (left ++ right) = .ok (.entity kind)) {e : Entity}
    (h : c.decode (.object (left ++ (Field.metadata.key, value) :: right)) = .ok (.entity e)) :
    ∃ m, c.readMetadata Field.metadata.key value = .ok m ∧
      e.metadata? = if Metadata.truthy m then some m else none := by
  obtain ⟨⟨d, hd⟩, ⟨m, hm⟩⟩ := (decode_metadata_succeeds_iff hrole).mp ⟨_, h⟩
  refine ⟨m, hm, ?_⟩
  have hd' := hd
  rw [decode_object_of_entity hrole] at hd'
  obtain ⟨edits, -, rfl⟩ := map_eq_ok_iff.mp hd'
  have hwith := readsMetadata_of_readMetadata hm left right _ hkey hd
  rw [h, Except.ok.injEq, Decoded.entity.injEq] at hwith
  rw [hwith, Entity.metadata?_withMetadata]

variable {key : String} {n : Int} {lower : -0x8000000000000000 ≤ n}
  {upper : n < 0x10000000000000000} {form : EntryForm} {before after : Json}

/-- In metadata, and in the metadata of an entry with any other members, a whole number is refused
exactly if it has a tag and is `2 ^ 63` or more.  What is read of it is the number itself exactly if
it is smaller, or a multiple of 2048.  So two forms agree on a number exactly if it is smaller, or if
both or neither of them have tags. -/
theorem decode_whole_number (hstandard : c.types = .standard)
    (h : form.Gives key (.integer n lower upper) value before after) :
    (∀ field,
      (Succeeds (c.readMetadata field value) ↔
        Succeeds (c.readMetadata field before) ∧ Succeeds (c.readMetadata field after) ∧
          (form = .triple → n < 2 ^ 63)) ∧
      ∀ m, c.Spares field key after → c.readMetadata field value = .ok m →
        ∃ s, m.get? key = some s ∧ (s.IsExactly n ↔ n < 2 ^ 63 ∨ 2048 ∣ n)) ∧
    (∀ left right kind, Field.metadata.key ∉ Entries.keys (left ++ right) →
      c.role (left ++ right) = .ok (.entity kind) →
      (Succeeds (c.decode (.object (left ++ (Field.metadata.key, value) :: right))) ↔
        Succeeds (c.decode (.object (left ++ right))) ∧
          Succeeds (c.readMetadata Field.metadata.key before) ∧
          Succeeds (c.readMetadata Field.metadata.key after) ∧ (form = .triple → n < 2 ^ 63)) ∧
      ∀ e, c.Spares Field.metadata.key key after →
        c.decode (.object (left ++ (Field.metadata.key, value) :: right)) = .ok (.entity e) →
        ∃ m s, e.metadata? = some m ∧ m.get? key = some s ∧
          (s.IsExactly n ↔ n < 2 ^ 63 ∨ 2048 ∣ n)) ∧
    ∀ (field : String) (other : EntryForm) (value' before' after' : Json),
      other.Gives key (.integer n lower upper) value' before' after' →
      (∀ part ∈ [before, after, before', after'], Succeeds (c.readMetadata field part)) →
      ((Succeeds (c.readMetadata field value) ↔ Succeeds (c.readMetadata field value')) ↔
        (n < 2 ^ 63 ∨ (form = .triple ↔ other = .triple))) := by
  refine ⟨fun field => ⟨?_, fun m => ?_⟩, fun left right kind hkey hrole => ⟨?_, fun e => ?_⟩, ?_⟩
  · exact h.readMetadata_succeeds_iff hstandard
  · exact fun hspares hread => h.exists_scalar hstandard hspares hread
  · rw [decode_metadata_succeeds_iff hrole, h.readMetadata_succeeds_iff hstandard]
  · intro hspares he
    obtain ⟨m, hread, hmetadata⟩ := exists_metadata_of_decode hkey hrole he
    obtain ⟨s, hs, hexact⟩ := h.exists_scalar hstandard hspares hread
    rw [if_pos (Metadata.truthy_of_get? hs)] at hmetadata
    exact ⟨m, s, hmetadata, hs, hexact⟩
  · intro field other value' before' after' hother hparts
    simp only [List.forall_mem_cons] at hparts
    rw [h.readMetadata_succeeds_iff hstandard, hother.readMetadata_succeeds_iff hstandard]
    tauto

/-- The number `2 ^ 63` as the identifier of a dataset, in a pair and in a triple. -/
theorem decode_whole_number_pair :
    let c : Codec := ⟨.standard, none⟩
    let number : Json.Number := .integer 9223372036854775808 (by decide) (by decide)
    let run : List Json := [.array [.string "run", .ofInt64 7]]
    let dataset (entry : Json) : Json :=
      .object [("_type", .string "dataset"), ("metadata", .array (entry :: run))]
    (∃ e m s, c.decode (dataset (.array [.string "id", .number number])) = .ok (.entity e) ∧
        e.metadata? = some m ∧ m.get? "id" = some s ∧ s.IsExactly 9223372036854775808) ∧
      ¬Succeeds (c.decode (dataset (.object (tripleMembers "id" (.number number) "integer")))) := by
  intro c number run dataset
  have hspares : c.Spares "metadata" "id" (.array run) := by
    have hrun : c.metadataPairs "metadata" (.array run) = .ok [("run", .integer 7)] := rfl
    intro pairs hpairs
    rw [hrun] at hpairs
    cases hpairs
    decide
  have hread : c.decode (dataset (.array [.string "id", .number number])) = .ok (.entity _) := rfl
  have hpair : EntryForm.pair.Gives "id" number
      (.array ([] ++ .array [.string "id", .number number] :: run)) (.array []) (.array run) := .pair
  have htriple : EntryForm.triple.Gives "id" number
      (.array ([] ++ .object (tripleMembers "id" (.number number) "integer") :: run)) (.array [])
      (.array run) := .triple rfl rfl rfl
  obtain ⟨-, hentry, -⟩ := decode_whole_number (c := c) rfl hpair
  obtain ⟨-, hrefused, -⟩ := decode_whole_number (c := c) rfl htriple
  constructor
  · obtain ⟨m, s, hm, hs, hexact⟩ :=
      (hentry [("_type", .string "dataset")] [] .dataset (by decide) rfl).2 _ hspares hread
    exact ⟨_, m, s, hread, hm, hs, hexact.mpr (.inr (by decide))⟩
  · intro hsucceeds
    obtain ⟨hsmall, -⟩ := hrefused [("_type", .string "dataset")] [] .dataset (by decide) rfl
    exact absurd ((hsmall.mp hsucceeds).2.2.2 rfl) (by decide)

/-- As a pair, the greatest whole number of a document is rounded to `2 ^ 64`. -/
theorem not_forall_whole_exactly :
    ¬∀ (default : Option EntityKind) (form : EntryForm) (key : String) (n : Int)
        (lower : -0x8000000000000000 ≤ n) (upper : n < 0x10000000000000000)
        (value before after : Json) (left right : List (String × Json)) (e : Entity),
      form.Gives key (.integer n lower upper) value before after →
      (Codec.mk .standard default).Spares Field.metadata.key key after →
      Field.metadata.key ∉ Entries.keys (left ++ right) →
      (Codec.mk .standard default).decode
          (.object (left ++ (Field.metadata.key, value) :: right)) = .ok (.entity e) →
      ∃ m s, e.metadata? = some m ∧ m.get? key = some s ∧ s.IsExactly n := by
  intro h
  have hspares : (Codec.mk .standard none).Spares Field.metadata.key "id" (.array []) := by
    intro pairs hpairs
    cases hpairs
    decide
  obtain ⟨m, s, hm, hs, hexact⟩ := h none .pair "id" 18446744073709551615 (by decide) (by decide) _
    (.array []) (.array []) [("_type", .string "dataset")] [] _ .pair hspares (by decide) rfl
  cases hm
  cases hs
  have hmultiple := (Binary64.signedUnits?_ofInt (n := 18446744073709551615)
    (by decide) (by decide)).mp hexact
  exact absurd hmultiple (by decide)

end Codec

end DataCatalog
