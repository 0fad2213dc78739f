/-!
# Maps in insertion order

Lists of keyed entries, and maps as such lists with distinct keys.  A new key goes to the end, a
key that is present keeps its place, and a removed key leaves the others where they were.  Main
statements: each operation keeps keys distinct, and look-ups after an insertion or a removal.
-/

namespace DataCatalog

variable {α : Type}

namespace Entries

def keys (entries : List (String × α)) : List String :=
  entries.map Prod.fst

/-- The value of the first entry with this key. -/
def get? (key : String) : List (String × α) → Option α
  | [] => none
  | (k, v) :: rest => if k = key then some v else get? key rest

/-- Replaces the value of a key in its place, or appends a new entry. -/
def put (key : String) (value : α) : List (String × α) → List (String × α)
  | [] => [(key, value)]
  | (k, v) :: rest => if k = key then (k, value) :: rest else (k, v) :: put key value rest

/-- Takes out the first entry with this key. -/
def erase (key : String) : List (String × α) → List (String × α)
  | [] => []
  | (k, v) :: rest => if k = key then rest else (k, v) :: erase key rest

@[simp] theorem keys_nil : keys ([] : List (String × α)) = [] := rfl

@[simp] theorem keys_cons (entry : String × α) (rest : List (String × α)) :
    keys (entry :: rest) = entry.1 :: keys rest := rfl

@[simp] theorem keys_append (left right : List (String × α)) :
    keys (left ++ right) = keys left ++ keys right := by
  simp [keys]

theorem mem_keys_put {key k : String} {value : α} {entries : List (String × α)} :
    k ∈ keys (put key value entries) ↔ k = key ∨ k ∈ keys entries := by
  induction entries with
  | nil => simp [put]
  | cons entry rest ih =>
    obtain ⟨k', v'⟩ := entry
    simp only [put]
    split
    · next h => subst h; simp
    · simp only [keys_cons, List.mem_cons, ih]
      constructor
      · rintro (h | h | h) <;> simp [h]
      · rintro (h | h | h) <;> simp [h]

theorem nodup_keys_put {key : String} {value : α} {entries : List (String × α)}
    (h : (keys entries).Nodup) : (keys (put key value entries)).Nodup := by
  induction entries with
  | nil => simp [put]
  | cons entry rest ih =>
    obtain ⟨k, v⟩ := entry
    simp only [keys_cons, List.nodup_cons] at h
    simp only [put]
    split
    · simpa using h
    · next hk =>
      simp only [keys_cons, List.nodup_cons, mem_keys_put, not_or]
      exact ⟨⟨hk, h.1⟩, ih h.2⟩

theorem keys_erase_sublist (key : String) (entries : List (String × α)) :
    (keys (erase key entries)).Sublist (keys entries) := by
  induction entries with
  | nil => simp [erase]
  | cons entry rest ih =>
    obtain ⟨k, v⟩ := entry
    simp only [erase]
    split
    · exact List.sublist_cons_self _ _
    · exact ih.cons_cons _

theorem nodup_keys_erase {key : String} {entries : List (String × α)}
    (h : (keys entries).Nodup) : (keys (erase key entries)).Nodup :=
  h.sublist (keys_erase_sublist key entries)

theorem get?_put_self (key : String) (value : α) (entries : List (String × α)) :
    get? key (put key value entries) = some value := by
  induction entries with
  | nil => simp [put, get?]
  | cons entry rest ih =>
    obtain ⟨k, v⟩ := entry
    by_cases h : k = key <;> simp [put, get?, h, ih]

theorem get?_put_of_ne {key k : String} (h : k ≠ key) (value : α)
    (entries : List (String × α)) : get? k (put key value entries) = get? k entries := by
  induction entries with
  | nil => simp [put, get?, Ne.symm h]
  | cons entry rest ih =>
    obtain ⟨k', v⟩ := entry
    by_cases hk : k' = key
    · subst hk
      simp [put, get?, Ne.symm h]
    · by_cases hk' : k' = k
      · subst hk'
        simp [put, get?, hk]
      · simp [put, get?, hk, hk', ih]

theorem get?_erase_of_ne {key k : String} (h : k ≠ key) (entries : List (String × α)) :
    get? k (erase key entries) = get? k entries := by
  induction entries with
  | nil => rfl
  | cons entry rest ih =>
    obtain ⟨k', v⟩ := entry
    by_cases hk : k' = key
    · subst hk
      simp [erase, get?, Ne.symm h]
    · by_cases hk' : k' = k
      · subst hk'
        simp [erase, get?, hk]
      · simp [erase, get?, hk, hk', ih]

theorem get?_eq_none_iff {key : String} {entries : List (String × α)} :
    get? key entries = none ↔ key ∉ keys entries := by
  induction entries with
  | nil => simp [get?]
  | cons entry rest ih =>
    obtain ⟨k, v⟩ := entry
    by_cases h : k = key
    · simp [get?, h]
    · simp [get?, h, ih, Ne.symm h]

/-- A new key goes to the end. -/
theorem put_of_not_mem {key : String} {value : α} {entries : List (String × α)}
    (h : key ∉ keys entries) : put key value entries = entries ++ [(key, value)] := by
  induction entries with
  | nil => rfl
  | cons entry rest ih =>
    obtain ⟨k, v⟩ := entry
    simp only [keys_cons, List.mem_cons, not_or] at h
    simp [put, Ne.symm h.1, ih h.2]

/-- A key that is present keeps its place. -/
theorem keys_put_of_mem {key : String} {value : α} {entries : List (String × α)}
    (h : key ∈ keys entries) : keys (put key value entries) = keys entries := by
  induction entries with
  | nil => simp at h
  | cons entry rest ih =>
    obtain ⟨k, v⟩ := entry
    by_cases hk : k = key
    · simp [put, hk]
    · have hrest : key ∈ keys rest := by
        simpa [Ne.symm hk] using h
      simp [put, hk, ih hrest]

end Entries

/-- A map whose entries stand in the order in which their keys came. -/
structure OrderedMap (α : Type) where
  entries : List (String × α)
  distinct : (Entries.keys entries).Nodup

namespace OrderedMap

theorem ext_entries {m n : OrderedMap α} (h : m.entries = n.entries) : m = n := by
  cases m
  cases n
  simp_all

def empty : OrderedMap α :=
  ⟨[], List.nodup_nil⟩

def isEmpty (m : OrderedMap α) : Bool :=
  m.entries.isEmpty

def size (m : OrderedMap α) : Nat :=
  m.entries.length

def keys (m : OrderedMap α) : List String :=
  Entries.keys m.entries

def values (m : OrderedMap α) : List α :=
  m.entries.map Prod.snd

def get? (m : OrderedMap α) (key : String) : Option α :=
  Entries.get? key m.entries

def contains (m : OrderedMap α) (key : String) : Bool :=
  (m.get? key).isSome

/-- Sets the value of a key.  The value it had is `m.get? key`. -/
def insert (m : OrderedMap α) (key : String) (value : α) : OrderedMap α :=
  ⟨Entries.put key value m.entries, Entries.nodup_keys_put m.distinct⟩

/-- Takes out a key.  The value it had is `m.get? key`. -/
def erase (m : OrderedMap α) (key : String) : OrderedMap α :=
  ⟨Entries.erase key m.entries, Entries.nodup_keys_erase m.distinct⟩

def insertAll (m : OrderedMap α) (entries : List (String × α)) : OrderedMap α :=
  entries.foldl (fun m (key, value) => m.insert key value) m

def ofList (entries : List (String × α)) : OrderedMap α :=
  empty.insertAll entries

@[simp] theorem entries_empty : (empty : OrderedMap α).entries = [] := rfl

@[simp] theorem get?_insert_self (m : OrderedMap α) (key : String) (value : α) :
    (m.insert key value).get? key = some value :=
  Entries.get?_put_self key value m.entries

theorem get?_insert_of_ne (m : OrderedMap α) {key k : String} (h : k ≠ key) (value : α) :
    (m.insert key value).get? k = m.get? k :=
  Entries.get?_put_of_ne h value m.entries

theorem get?_erase_of_ne (m : OrderedMap α) {key k : String} (h : k ≠ key) :
    (m.erase key).get? k = m.get? k :=
  Entries.get?_erase_of_ne h m.entries

end OrderedMap

end DataCatalog
