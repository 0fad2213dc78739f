import DataCatalog.OrderedMap

/-!
# Lists of entries and maps

Look-ups in joined lists, and the entries of a map as the list from which it is built: inserting
entries with new keys one after the other appends them, so a map is rebuilt from its own entries.
-/

namespace DataCatalog

variable {α : Type}

namespace Entries

theorem get?_append (key : String) (left right : List (String × α)) :
    get? key (left ++ right) = (get? key left).or (get? key right) := by
  induction left with
  | nil => simp [get?]
  | cons entry rest ih =>
      obtain ⟨k, v⟩ := entry
      by_cases hk : k = key
      · simp [get?, hk]
      · simp [get?, hk, ih]

theorem get?_append_of_not_mem {key : String} {left : List (String × α)}
    (h : key ∉ keys left) (right : List (String × α)) :
    get? key (left ++ right) = get? key right := by
  rw [get?_append, get?_eq_none_iff.mpr h, Option.none_or]

theorem mem_of_get? {key : String} {value : α} {entries : List (String × α)}
    (h : get? key entries = some value) : (key, value) ∈ entries := by
  induction entries with
  | nil => simp [get?] at h
  | cons entry rest ih =>
      obtain ⟨k, v⟩ := entry
      by_cases hk : k = key
      · simp only [get?, hk, if_true, Option.some.injEq] at h
        simp [hk, h]
      · simp only [get?, hk, if_false] at h
        exact List.mem_cons_of_mem _ (ih h)

theorem mem_keys_of_mem {entry : String × α} {entries : List (String × α)}
    (h : entry ∈ entries) : entry.1 ∈ keys entries :=
  List.mem_map_of_mem h

/-- Where keys are distinct, every entry is found under its key. -/
theorem get?_eq_some_iff {key : String} {value : α} {entries : List (String × α)}
    (hdistinct : (keys entries).Nodup) :
    get? key entries = some value ↔ (key, value) ∈ entries := by
  refine ⟨mem_of_get?, fun hmem => ?_⟩
  induction entries with
  | nil => simp at hmem
  | cons entry rest ih =>
      obtain ⟨k, v⟩ := entry
      rw [keys_cons, List.nodup_cons] at hdistinct
      rcases List.mem_cons.mp hmem with heq | hrest
      · obtain ⟨rfl, rfl⟩ := Prod.mk.inj heq
        simp [get?]
      · have hk : k ≠ key := by
          rintro rfl
          have hmem := mem_keys_of_mem hrest
          exact hdistinct.1 hmem
        simp [get?, hk, ih hdistinct.2 hrest]

theorem mem_of_mem_put {key : String} {value : α} {entry : String × α}
    {entries : List (String × α)} (h : entry ∈ put key value entries) :
    entry = (key, value) ∨ entry ∈ entries := by
  induction entries with
  | nil => simpa [put] using h
  | cons head rest ih =>
      obtain ⟨k, v⟩ := head
      by_cases hk : k = key
      · simp only [put, hk, if_true, List.mem_cons] at h
        exact h.imp id (List.mem_cons_of_mem _)
      · simp only [put, hk, if_false, List.mem_cons] at h
        rcases h with rfl | hrest
        · exact .inr List.mem_cons_self
        · exact (ih hrest).imp id (List.mem_cons_of_mem _)

end Entries

namespace OrderedMap

theorem mem_of_mem_insertAll {m : OrderedMap α} {entries : List (String × α)}
    {entry : String × α} (h : entry ∈ (m.insertAll entries).entries) :
    entry ∈ entries ∨ entry ∈ m.entries := by
  induction entries generalizing m with
  | nil => exact .inr h
  | cons head rest ih =>
      rcases ih h with hrest | hinsert
      · exact .inl (List.mem_cons_of_mem head hrest)
      · rcases Entries.mem_of_mem_put hinsert with rfl | hold
        · exact .inl List.mem_cons_self
        · exact .inr hold

theorem mem_of_mem_ofList {entries : List (String × α)} {entry : String × α}
    (h : entry ∈ (ofList entries).entries) : entry ∈ entries := by
  rcases mem_of_mem_insertAll h with hentries | hempty
  · exact hentries
  · cases hempty

/-- Entries with new keys are appended. -/
theorem entries_insertAll {m : OrderedMap α} {entries : List (String × α)}
    (hdistinct : (Entries.keys (m.entries ++ entries)).Nodup) :
    (m.insertAll entries).entries = m.entries ++ entries := by
  induction entries generalizing m with
  | nil => simp [insertAll]
  | cons entry rest ih =>
      obtain ⟨key, value⟩ := entry
      have hnew : key ∉ Entries.keys m.entries := by
        intro hmem
        rw [Entries.keys_append, Entries.keys_cons, List.nodup_append] at hdistinct
        exact hdistinct.2.2 key hmem key List.mem_cons_self rfl
      have hinsert : (m.insert key value).entries = m.entries ++ [(key, value)] :=
        Entries.put_of_not_mem hnew
      calc
        (m.insertAll ((key, value) :: rest)).entries =
            ((m.insert key value).insertAll rest).entries := rfl
        _ = (m.insert key value).entries ++ rest := by
            apply ih
            simpa [hinsert] using hdistinct
        _ = m.entries ++ (key, value) :: rest := by
            simp [hinsert]

theorem ofList_entries (m : OrderedMap α) : ofList m.entries = m := by
  apply ext_entries
  exact entries_insertAll m.distinct

end OrderedMap

end DataCatalog
