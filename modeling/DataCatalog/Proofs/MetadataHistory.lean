import DataCatalog.Codec.Scalar
import DataCatalog.Proofs.Entries
import DataCatalog.Proofs.Results

/-!
# Metadata as a map in insertion order

A map is compared with the log of its changes.  It holds under each key what the last change of the
key has left, and its keys stand in the order in which they came in, where a key that was taken out
comes in anew.  Every operation on metadata adds changes to the log of a map, starts a log from
pairs, or exchanges two maps with their logs; so the comparison is made once for each kind of change
and holds of every map at the end of every run.
-/

namespace DataCatalog

variable {α : Type}

/-! ## Operations that return the former value -/

namespace Entries

/-- Replaces the value of a key in its place, or appends a new entry, and returns the former
value. -/
def exchange (key : String) (value : α) : List (String × α) → Option α × List (String × α)
  | [] => (none, [(key, value)])
  | (k, v) :: rest =>
    if k = key then (some v, (k, value) :: rest)
    else
      let (former, more) := exchange key value rest
      (former, (k, v) :: more)

/-- Takes out the first entry with this key and returns its value. -/
def takeOut (key : String) : List (String × α) → Option α × List (String × α)
  | [] => (none, [])
  | (k, v) :: rest =>
    if k = key then (some v, rest)
    else
      let (former, more) := takeOut key rest
      (former, (k, v) :: more)

theorem exchange_eq (key : String) (value : α) (entries : List (String × α)) :
    exchange key value entries = (get? key entries, put key value entries) := by
  induction entries with
  | nil => rfl
  | cons entry rest ih =>
      obtain ⟨k, v⟩ := entry
      by_cases h : k = key <;> simp [exchange, get?, put, h, ih]

theorem takeOut_eq (key : String) (entries : List (String × α)) :
    takeOut key entries = (get? key entries, erase key entries) := by
  induction entries with
  | nil => rfl
  | cons entry rest ih =>
      obtain ⟨k, v⟩ := entry
      by_cases h : k = key <;> simp [takeOut, get?, erase, h, ih]

/-- Where keys are distinct, taking out a key leaves all other entries as and where they were. -/
theorem erase_eq_filter {key : String} {entries : List (String × α)}
    (h : (keys entries).Nodup) :
    erase key entries = entries.filter fun entry => entry.1 ≠ key := by
  induction entries with
  | nil => rfl
  | cons entry rest ih =>
      obtain ⟨k, v⟩ := entry
      rw [keys_cons, List.nodup_cons] at h
      by_cases hk : k = key
      · subst hk
        have hrest : rest.filter (fun entry => entry.1 ≠ k) = rest := by
          rw [List.filter_eq_self]
          intro entry hentry
          have hkey : entry.1 ∈ keys rest := mem_keys_of_mem hentry
          exact decide_eq_true fun heq => h.1 (heq ▸ hkey)
        rw [List.filter_cons_of_neg (by simp), hrest, erase, if_pos rfl]
      · simp [erase, hk, ih h.2]

end Entries

namespace OrderedMap

variable {m n : OrderedMap α}

theorem keys_insert_of_mem {key : String} (h : key ∈ m.keys) (value : α) :
    (m.insert key value).keys = m.keys :=
  Entries.keys_put_of_mem h

theorem keys_insert_of_notMem {key : String} (h : key ∉ m.keys) (value : α) :
    (m.insert key value).keys = m.keys ++ [key] := by
  simp only [keys, insert, Entries.put_of_not_mem h, Entries.keys_append, Entries.keys_cons,
    Entries.keys_nil]

theorem entries_erase (m : OrderedMap α) (key : String) :
    (m.erase key).entries = m.entries.filter fun entry => entry.1 ≠ key :=
  Entries.erase_eq_filter m.distinct

theorem keys_erase (m : OrderedMap α) (key : String) :
    (m.erase key).keys = m.keys.filter (· ≠ key) := by
  simp only [keys, Entries.keys, entries_erase, List.filter_map]
  rfl

theorem mem_keys_iff {key : String} : key ∈ m.keys ↔ (m.get? key).isSome := by
  rw [← not_iff_not, Bool.not_eq_true, Option.isSome_eq_false_iff, Option.isNone_iff_eq_none]
  exact Entries.get?_eq_none_iff.symm

theorem get?_erase_self (m : OrderedMap α) (key : String) : (m.erase key).get? key = none := by
  have hkey : key ∉ (m.erase key).keys := by
    simp [keys_erase]
  exact Entries.get?_eq_none_iff.mpr hkey

/-! ## Logs -/

/-- A change of a map. -/
inductive Change (α : Type) where
  | insert (key : String) (value : α)
  | remove (key : String)

namespace Change

def key : Change α → String
  | .insert key _ => key
  | .remove key => key

/-- What the change leaves under its key. -/
def value? : Change α → Option α
  | .insert _ value => some value
  | .remove _ => none

@[simp] theorem key_insert (key : String) (value : α) : (insert key value).key = key := rfl

@[simp] theorem key_remove (key : String) : (remove key : Change α).key = key := rfl

@[simp] theorem value?_insert (key : String) (value : α) :
    (insert key value).value? = some value := rfl

@[simp] theorem value?_remove (key : String) : (remove key : Change α).value? = none := rfl

def inserts (entries : List (String × α)) : List (Change α) :=
  entries.map fun entry => .insert entry.1 entry.2

end Change

variable {log : List (Change α)}

/-- What the last change of the key has left under it. -/
def held (log : List (Change α)) (key : String) : Option α :=
  (log.filter fun change => change.key = key).getLast?.bind Change.value?

/-- The key came in with the change at this index: it was absent before, and it has not been taken
out since. -/
def EntersAt (log : List (Change α)) (key : String) (index : Nat) : Prop :=
  ∃ before value after, log = before ++ .insert key value :: after ∧ before.length = index ∧
    held before key = none ∧ .remove key ∉ after

theorem held_concat (log : List (Change α)) (change : Change α) (key : String) :
    held (log ++ [change]) key = if change.key = key then change.value? else held log key := by
  by_cases h : change.key = key <;> simp [held, h]

theorem held_of_remove_notMem {before after : List (Change α)} {key : String} {value : α}
    (h : .remove key ∉ after) : (held (before ++ .insert key value :: after) key).isSome := by
  induction after using List.reverseRecOn with
  | nil => simp [held_concat]
  | append_singleton rest change ih =>
      rw [List.mem_append, not_or, List.mem_singleton] at h
      rw [← List.cons_append, ← List.append_assoc, held_concat]
      split
      · next hkey =>
          cases change with
          | insert k v => rfl
          | remove k => exact absurd (congrArg Change.remove hkey.symm) h.2
      · exact ih h.1

theorem mem_keys_of_held {key : String} (h : (held log key).isSome) :
    key ∈ log.map Change.key := by
  by_contra hkey
  have hnone : (log.filter fun change => change.key = key) = [] := by
    simpa [List.filter_eq_nil_iff] using hkey
  simp [held, hnone] at h

namespace EntersAt

variable {key : String} {i j : Nat}

theorem lt_length (h : EntersAt log key i) : i < log.length := by
  obtain ⟨before, value, after, rfl, rfl, -, -⟩ := h
  simp

theorem concat (h : EntersAt log key i) {change : Change α} (hchange : change ≠ .remove key) :
    EntersAt (log ++ [change]) key i := by
  obtain ⟨before, value, after, rfl, hlength, habsent, hafter⟩ := h
  refine ⟨before, value, after ++ [change], by simp, hlength, habsent, ?_⟩
  simpa [hafter] using hchange.symm

theorem last (h : held log key = none) (value : α) :
    EntersAt (log ++ [.insert key value]) key log.length :=
  ⟨log, value, [], rfl, rfl, h, List.not_mem_nil⟩

/-- A later entry would need a removal in between. -/
theorem le (hi : EntersAt log key i) (hj : EntersAt log key j) : j ≤ i := by
  obtain ⟨before, value, after, rfl, rfl, -, hafter⟩ := hi
  obtain ⟨before', value', after', heq, rfl, habsent, -⟩ := hj
  rcases List.append_eq_append_iff.mp heq with ⟨middle, rfl, hmiddle⟩ | ⟨middle, rfl, -⟩
  · cases middle with
    | nil => simp
    | cons change rest =>
        obtain ⟨rfl, rfl⟩ := List.cons.inj hmiddle
        have hrest : .remove key ∉ rest := fun hmem => hafter (List.mem_append_left _ hmem)
        have hheld : (held (before ++ .insert key value :: rest) key).isSome :=
          held_of_remove_notMem hrest
        simp [habsent] at hheld
  · simp

theorem unique (hi : EntersAt log key i) (hj : EntersAt log key j) : i = j :=
  le_antisymm (hj.le hi) (hi.le hj)

end EntersAt

/-- The first key came in before the second. -/
def EntersBefore (log : List (Change α)) (k l : String) : Prop :=
  ∃ i j, EntersAt log k i ∧ EntersAt log l j ∧ i < j

theorem EntersBefore.concat {k l : String} (h : EntersBefore log k l) {change : Change α}
    (hk : change ≠ .remove k) (hl : change ≠ .remove l) :
    EntersBefore (log ++ [change]) k l := by
  obtain ⟨i, j, hi, hj, hlt⟩ := h
  exact ⟨i, j, hi.concat hk, hj.concat hl, hlt⟩

theorem EntersBefore.asymm {k l : String} (h : EntersBefore log k l) : ¬EntersBefore log l k := by
  rintro ⟨j', i', hj', hi', hlt'⟩
  obtain ⟨i, j, hi, hj, hlt⟩ := h
  have := hi.unique hi'
  have := hj.unique hj'
  omega

/-! ## Maps that follow a log -/

/-- The map holds what the log says, and its keys stand in the order in which they came in. -/
structure Follows (log : List (Change α)) (m : OrderedMap α) : Prop where
  value : ∀ key, m.get? key = held log key
  enters : ∀ key ∈ m.keys, ∃ index, EntersAt log key index
  order : m.keys.Pairwise (EntersBefore log)

namespace Follows

theorem empty : Follows [] (.empty : OrderedMap α) :=
  ⟨fun _ => rfl, List.forall_mem_nil _, .nil⟩

theorem insert_of_mem (h : Follows log m) {key : String} (hkey : key ∈ m.keys) (value : α) :
    (∀ k ∈ (m.insert key value).keys, ∃ index,
        EntersAt (log ++ [.insert key value]) k index) ∧
      (m.insert key value).keys.Pairwise (EntersBefore (log ++ [.insert key value])) := by
  rw [keys_insert_of_mem hkey]
  constructor
  · intro k hk
    obtain ⟨index, hindex⟩ := h.enters k hk
    exact ⟨index, hindex.concat nofun⟩
  · exact h.order.imp fun hbefore => hbefore.concat nofun nofun

theorem insert_of_notMem (h : Follows log m) {key : String} (hkey : key ∉ m.keys) (value : α) :
    (∀ k ∈ (m.insert key value).keys, ∃ index,
        EntersAt (log ++ [.insert key value]) k index) ∧
      (m.insert key value).keys.Pairwise (EntersBefore (log ++ [.insert key value])) := by
  have habsent : held log key = none := by
    rw [← h.value]
    exact Entries.get?_eq_none_iff.mpr hkey
  have hold : ∀ k ∈ m.keys, ∃ index, EntersAt (log ++ [.insert key value]) k index ∧
      index < log.length := by
    intro k hk
    obtain ⟨index, hindex⟩ := h.enters k hk
    exact ⟨index, hindex.concat nofun, hindex.lt_length⟩
  have hnew : EntersAt (log ++ [.insert key value]) key log.length := .last habsent value
  rw [keys_insert_of_notMem hkey, List.forall_mem_append, List.forall_mem_singleton,
    List.pairwise_append]
  refine ⟨⟨fun k hk => ?_, _, hnew⟩, ?_, List.pairwise_singleton _ _, fun k hk l hl => ?_⟩
  · obtain ⟨index, hindex, -⟩ := hold k hk
    exact ⟨index, hindex⟩
  · exact h.order.imp fun hbefore => hbefore.concat nofun nofun
  · obtain ⟨index, hindex, hlt⟩ := hold k hk
    rw [List.mem_singleton.mp hl]
    exact ⟨index, log.length, hindex, hnew, hlt⟩

theorem insert (h : Follows log m) (key : String) (value : α) :
    Follows (log ++ [.insert key value]) (m.insert key value) := by
  have hplaces : (∀ k ∈ (m.insert key value).keys, ∃ index,
        EntersAt (log ++ [.insert key value]) k index) ∧
      (m.insert key value).keys.Pairwise (EntersBefore (log ++ [.insert key value])) := by
    by_cases hkey : key ∈ m.keys
    · exact h.insert_of_mem hkey value
    · exact h.insert_of_notMem hkey value
  refine ⟨fun k => ?_, hplaces.1, hplaces.2⟩
  rw [held_concat, Change.key_insert]
  by_cases hk : k = key
  · subst hk
    simp
  · rw [m.get?_insert_of_ne hk, h.value, if_neg (Ne.symm hk)]

theorem erase (h : Follows log m) (key : String) :
    Follows (log ++ [.remove key]) (m.erase key) := by
  have hother : ∀ {k : String}, k ≠ key → Change.remove key ≠ (.remove k : Change α) :=
    fun hk heq => hk (Change.remove.inj heq).symm
  refine ⟨fun k => ?_, fun k hk => ?_, ?_⟩
  · rw [held_concat, Change.key_remove]
    by_cases hk : k = key
    · subst hk
      simp [get?_erase_self]
    · rw [m.get?_erase_of_ne hk, h.value, if_neg (Ne.symm hk)]
  · rw [keys_erase, List.mem_filter, decide_eq_true_eq] at hk
    obtain ⟨index, hindex⟩ := h.enters k hk.1
    exact ⟨index, hindex.concat (hother hk.2)⟩
  · rw [keys_erase, List.pairwise_filter]
    refine h.order.imp fun hbefore hk hl => ?_
    exact hbefore.concat (hother (of_decide_eq_true hk)) (hother (of_decide_eq_true hl))

theorem insertAll (h : Follows log m) (entries : List (String × α)) :
    Follows (log ++ Change.inserts entries) (m.insertAll entries) := by
  induction entries generalizing log m with
  | nil =>
      rw [Change.inserts, List.map_nil, List.append_nil]
      exact h
  | cons entry rest ih =>
      have hrest := ih (h.insert entry.1 entry.2)
      rw [List.append_assoc] at hrest
      exact hrest

theorem ofList (entries : List (String × α)) :
    Follows (Change.inserts entries) (.ofList entries) :=
  empty.insertAll entries

theorem mem_keys_iff (h : Follows log m) {key : String} :
    key ∈ m.keys ↔ (held log key).isSome := by
  rw [OrderedMap.mem_keys_iff, h.value]

/-- The keys are those of the log that have not been left without a value. -/
theorem keys_perm (h : Follows log m) :
    m.keys.Perm ((log.map Change.key).dedup.filter fun key => (held log key).isSome) := by
  have hdistinct : m.keys.Nodup := m.distinct
  refine (List.perm_ext_iff_of_nodup hdistinct ((List.nodup_dedup _).filter _)).mpr fun key => ?_
  rw [List.mem_filter, List.mem_dedup, h.mem_keys_iff]
  exact ⟨fun hheld => ⟨mem_keys_of_held hheld, hheld⟩, And.right⟩

/-- Maps that follow one log are equal. -/
theorem eq (hm : Follows log m) (hn : Follows log n) : m = n := by
  have hkeys : m.keys = n.keys := by
    refine (hm.keys_perm.trans hn.keys_perm.symm).eq_of_pairwise ?_ hm.order hn.order
    exact fun k l _ _ hkl hlk => absurd hlk hkl.asymm
  have hentries (q : OrderedMap α) (hq : Follows log q) :
      q.entries.map (fun entry => (entry.1, some entry.2)) =
        q.keys.map fun key => (key, held log key) := by
    rw [keys, Entries.keys, List.map_map]
    refine List.map_congr_left fun entry hentry => ?_
    have hget : q.get? entry.1 = some entry.2 :=
      (Entries.get?_eq_some_iff q.distinct).mpr hentry
    rw [Function.comp_apply, ← hq.value, hget]
  have hsame := (hentries m hm).trans (hkeys ▸ (hentries n hn).symm)
  refine ext_entries (List.map_injective_iff.mpr ?_ hsame)
  rintro ⟨k, v⟩ ⟨l, w⟩ heq
  simpa using heq

end Follows

end OrderedMap

/-! ## Reading metadata -/

namespace Codec

/-- The pairs that are inserted one after the other when metadata is read. -/
def metadataPairs (c : Codec) (field : String) : Json → Except Error (List (String × Scalar))
  | .null => .ok []
  | .array items => items.mapM (c.readEntry field)
  | .object members => members.mapM fun entry => readPair field entry.1 entry.2
  | _ => .error (Cause.malformedMetadata.atField field)

theorem readMetadata_eq_map (c : Codec) (field : String) (value : Json) :
    c.readMetadata field value = (c.metadataPairs field value).map .ofList := by
  cases value <;> rfl

end Codec

/-! ## Operations on metadata -/

namespace Metadata

open OrderedMap

variable {ι : Type}

/-- An operation on metadata that is kept at places. -/
inductive Step (ι : Type) where
  | insert (place : ι) (key : String) (value : Scalar)
  | remove (place : ι) (key : String)
  | extend (place : ι) (pairs : List (String × Scalar))
  | collect (place : ι) (pairs : List (String × Scalar))
  | read (place : ι) (codec : Codec) (field : String) (value : Json)
  | merge (place other : ι)
  | swap (place other : ι)

variable [DecidableEq ι]

/-- What a step makes of the maps.  A value that is not read leaves them as they are. -/
def Step.apply (maps : ι → Metadata) : Step ι → ι → Metadata
  | insert place key value => Function.update maps place ((maps place).insert key value)
  | remove place key => Function.update maps place ((maps place).erase key)
  | extend place pairs => Function.update maps place ((maps place).insertAll pairs)
  | collect place pairs => Function.update maps place (.ofList pairs)
  | read place codec field value =>
    match codec.readMetadata field value with
    | .ok m => Function.update maps place m
    | .error _ => maps
  | merge place other => Function.update maps place ((maps place).insertAll (maps other).entries)
  | swap place other => maps ∘ Equiv.swap place other

/-- What a step makes of the logs.  Collected and read pairs start a log, and a merger adds the
entries of the other map in their order. -/
def Step.record (maps : ι → Metadata) (logs : ι → List (Change Scalar)) :
    Step ι → ι → List (Change Scalar)
  | insert place key value => Function.update logs place (logs place ++ [.insert key value])
  | remove place key => Function.update logs place (logs place ++ [.remove key])
  | extend place pairs => Function.update logs place (logs place ++ Change.inserts pairs)
  | collect place pairs => Function.update logs place (Change.inserts pairs)
  | read place codec field value =>
    match codec.metadataPairs field value with
    | .ok pairs => Function.update logs place (Change.inserts pairs)
    | .error _ => logs
  | merge place other =>
    Function.update logs place (logs place ++ Change.inserts (maps other).entries)
  | swap place other => logs ∘ Equiv.swap place other

/-- Maps at places, each with the log of its changes. -/
structure Books (ι : Type) where
  maps : ι → Metadata
  logs : ι → List (Change Scalar)

def Books.after (books : Books ι) (step : Step ι) : Books ι where
  maps := step.apply books.maps
  logs := step.record books.maps books.logs

/-- The maps and their logs after the steps, from empty maps on. -/
def run (steps : List (Step ι)) : Books ι :=
  steps.foldl Books.after ⟨fun _ => .empty, fun _ => []⟩

def Books.Agree (books : Books ι) : Prop :=
  ∀ place, Follows (books.logs place) (books.maps place)

theorem Books.Agree.update {books : Books ι} (h : books.Agree) (place : ι) {m : Metadata}
    {log : List (Change Scalar)} (hm : Follows log m) :
    Books.Agree ⟨Function.update books.maps place m, Function.update books.logs place log⟩ := by
  intro p
  by_cases hp : p = place
  · subst hp
    simpa using hm
  · simpa [hp] using h p

theorem Books.Agree.after {books : Books ι} (h : books.Agree) (step : Step ι) :
    (books.after step).Agree := by
  cases step with
  | insert place key value => exact h.update place ((h place).insert key value)
  | remove place key => exact h.update place ((h place).erase key)
  | extend place pairs => exact h.update place ((h place).insertAll pairs)
  | collect place pairs => exact h.update place (.ofList pairs)
  | read place codec field value =>
      have hread := codec.readMetadata_eq_map field value
      cases hpairs : codec.metadataPairs field value with
      | error e =>
          rw [hpairs, map_error] at hread
          simpa only [Books.Agree, Books.after, Step.apply, Step.record, hread, hpairs] using h
      | ok pairs =>
          rw [hpairs, map_ok] at hread
          have hupdate := h.update place (.ofList pairs)
          simpa only [Books.Agree, Books.after, Step.apply, Step.record, hread, hpairs]
            using hupdate
  | merge place other => exact h.update place ((h place).insertAll _)
  | swap place other => exact fun p => h (Equiv.swap place other p)

theorem agree_run (steps : List (Step ι)) : (run steps).Agree := by
  have hrest : ∀ (rest : List (Step ι)) {books : Books ι}, books.Agree →
      (rest.foldl Books.after books).Agree := by
    intro rest
    induction rest with
    | nil => exact id
    | cons step rest ih => exact fun h => ih (h.after step)
  exact hrest steps fun _ => .empty

/-- After any run, at any place, the map is the insertion-ordered map of its log: each key once and
in the order in which the keys came in, under each key what its last change has left, and the same
as former value when the key is inserted again or removed.  A removal drops the entry of the key and
nothing else. -/
theorem run_mirrors_log (steps : List (Step ι)) (place : ι) :
    let m := (run steps).maps place
    let log := (run steps).logs place
    m.keys.Nodup ∧ (∀ key ∈ m.keys, ∃! index, EntersAt log key index) ∧
      m.keys.Pairwise (EntersBefore log) ∧
      (∀ key, m.get? key = held log key ∧ m.contains key = (held log key).isSome ∧
        (key ∈ m.keys ↔ (held log key).isSome)) ∧
      m.size = ((log.map Change.key).dedup.filter fun key => (held log key).isSome).length ∧
      (∀ key value, Entries.exchange key value m.entries =
        (held log key, (m.insert key value).entries)) ∧
      ∀ key, Entries.takeOut key m.entries = (held log key, (m.erase key).entries) ∧
        (m.erase key).entries = m.entries.filter fun entry => entry.1 ≠ key := by
  intro m log
  have hfollows : Follows log m := agree_run steps place
  refine ⟨m.distinct, fun key hkey => ?_, hfollows.order, fun key => ⟨hfollows.value key, ?_,
    hfollows.mem_keys_iff⟩, ?_, fun key value => ?_, fun key => ⟨?_, m.entries_erase key⟩⟩
  · obtain ⟨index, hindex⟩ := hfollows.enters key hkey
    exact ⟨index, hindex, fun other hother => hother.unique hindex⟩
  · rw [contains, hfollows.value]
  · rw [← hfollows.keys_perm.length_eq, OrderedMap.keys, Entries.keys, List.length_map, size]
  · rw [Entries.exchange_eq, ← hfollows.value]
    rfl
  · rw [Entries.takeOut_eq, ← hfollows.value]
    rfl

example :
    (run [.insert true "a" (.integer 1), .insert true "b" (.integer 2), .remove true "a",
      .insert true "a" (.integer 3), .swap true false, .extend true [("b", .integer 4)],
      .merge false true]).maps false =
        .ofList [("b", .integer 4), ("a", .integer 3)] := rfl

end Metadata

end DataCatalog
