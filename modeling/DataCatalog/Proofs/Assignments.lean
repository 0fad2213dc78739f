import DataCatalog.CommandLine.Assignment
import DataCatalog.Proofs.Encodable
import DataCatalog.Proofs.MetadataHistory
import DataCatalog.Proofs.SpelledDoubles

/-!
# Metadata from assignments

The key of an assignment ends at the first equals sign.  There is only one way to split a text at
that sign, so an assignment is refused exactly if it has no such sign or nothing but blanks before
it.  The assignments are inserted one after the other: a key keeps the place of its first assignment
and has the value of its last one.
-/

namespace DataCatalog

/-! ## Maps from lists -/

namespace OrderedMap

variable {α : Type}

theorem ofList_concat (entries : List (String × α)) (key : String) (value : α) :
    ofList (entries ++ [(key, value)]) = (ofList entries).insert key value := by
  simp [ofList, insertAll, List.foldl_append]

/-- Each key stands where it occurs first. -/
theorem keys_ofList (entries : List (String × α)) :
    (ofList entries).keys = (Entries.keys entries).eraseDups := by
  induction entries using List.reverseRecOn with
  | nil => rfl
  | append_singleton rest entry ih =>
      obtain ⟨key, value⟩ := entry
      rw [ofList_concat, Entries.keys_append, List.eraseDups_append, ← ih]
      by_cases hkey : key ∈ (ofList rest).keys
      · have hold : key ∈ Entries.keys rest := by
          rwa [ih, List.mem_eraseDups] at hkey
        rw [keys_insert_of_mem hkey]
        simp [List.removeAll, hold]
      · have hnew : key ∉ Entries.keys rest := by
          rwa [ih, List.mem_eraseDups] at hkey
        rw [keys_insert_of_notMem hkey]
        simp [List.removeAll, hnew, List.eraseDups_cons]

/-- Each key has the value with which it occurs last. -/
theorem get?_ofList (entries : List (String × α)) (key : String) :
    (ofList entries).get? key =
      ((entries.filter fun entry => entry.1 = key).getLast?).map Prod.snd := by
  induction entries using List.reverseRecOn with
  | nil => rfl
  | append_singleton rest entry ih =>
      obtain ⟨k, value⟩ := entry
      rw [ofList_concat, List.filter_append]
      by_cases hkey : k = key
      · simp [hkey]
      · rw [get?_insert_of_ne _ (Ne.symm hkey), ih]
        simp [hkey]

end OrderedMap

/-! ## Blanks -/

namespace Text

/-- There is nothing but blanks in the text. -/
def Blank (s : List Char) : Prop :=
  ∀ c ∈ s, isBlank c = true

theorem trim_eq_nil_iff {s : List Char} : trim s = [] ↔ Blank s := by
  rw [trim, dropEndWhile, List.reverse_eq_nil_iff, List.dropWhile_eq_nil_iff]
  simp only [List.mem_reverse]
  constructor
  · intro h
    have hnil : s.dropWhile isBlank = [] := by
      by_contra hne
      -- The first character that is left is no blank, although all that are left are blanks.
      obtain ⟨c, rest, hrest⟩ := List.exists_cons_of_ne_nil hne
      have hblank : isBlank c = true := h c (by simp [hrest])
      have hhead : isBlank c = false := head_dropWhile (s := s) (by rw [hrest]; rfl)
      rw [hhead] at hblank
      cases hblank
    exact List.dropWhile_eq_nil_iff.mp hnil
  · intro h
    simp [List.dropWhile_eq_nil_iff.mpr h]

end Text

/-! ## Scalars -/

namespace Scalar

/-- The scalar that the text stands for: the whole number of 64 bits that it spells, else the finite
double that it spells, else the text itself. -/
inductive StandsFor (text : String) : Scalar → Prop
  | integer {n : Int64} (h : Text.SpellsInt text.toList n.toInt) : StandsFor text (.integer n)
  | decimal {x : Binary64} (hinteger : ∀ n : Int64, ¬Text.SpellsInt text.toList n.toInt)
      (h : Binary64.Spells text.toList x) (hfinite : x.isFinite = true) :
      StandsFor text (.decimal x)
  | text (hinteger : ∀ n : Int64, ¬Text.SpellsInt text.toList n.toInt)
      (hdecimal : ∀ x, Binary64.Spells text.toList x → x.isFinite = false) :
      StandsFor text (.text text)

theorem StandsFor.isFinite {text : String} {s : Scalar} (h : StandsFor text s) : s.IsFinite := by
  cases h with
  | integer => trivial
  | decimal hinteger h hfinite => exact hfinite
  | text => trivial

end Scalar

namespace CommandLine

theorem standsFor_scalarOfText (text : String) : Scalar.StandsFor text (scalarOfText text) := by
  unfold scalarOfText
  cases hinteger : Text.parseInt64 text.toList with
  | ok n => exact .integer (Text.parseInt64_eq_ok_iff.mp hinteger)
  | error fault =>
      have hnone : ∀ n : Int64, ¬Text.SpellsInt text.toList n.toInt := by
        intro n hn
        cases hinteger.symm.trans (Text.parseInt64_eq_ok_iff.mpr hn)
      dsimp only
      split
      · next x hx =>
          split
          · next hfinite =>
              exact .decimal hnone ((Binary64.parse?_eq_some_iff hfinite).mp hx) hfinite
          · next hinfinite =>
              refine .text hnone fun y hy => ?_
              by_contra hfinite
              rw [Bool.not_eq_false] at hfinite
              rw [(Binary64.parse?_eq_some_iff hfinite).mpr hy, Option.some.injEq] at hx
              exact hinfinite (hx ▸ hfinite)
      · next hx =>
          refine .text hnone fun y hy => ?_
          by_contra hfinite
          rw [Bool.not_eq_false] at hfinite
          rw [(Binary64.parse?_eq_some_iff hfinite).mpr hy] at hx
          cases hx

/-! ## Assignments -/

/-- The text assigns the value to the key: the key stands before the first equals sign, with blanks
around it or without, and it is not blank. -/
def Assigns (text key value : String) : Prop :=
  ∃ before, text.toList = before ++ '=' :: value.toList ∧ '=' ∉ before ∧
    ¬Text.Blank before ∧ key.toList = Text.trim before

/-- There is no equals sign, or nothing but blanks before the first one. -/
def Keyless (text : String) : Prop :=
  '=' ∉ text.toList ∨
    ∃ before value, text.toList = before ++ '=' :: value ∧ '=' ∉ before ∧ Text.Blank before

variable {option text : String}

theorem splitAssignment_of_notMem (h : '=' ∉ text.toList) :
    splitAssignment option text = .error (Cause.invalidAssignment option text).error := by
  have hnone : text.toList.dropWhile (· != '=') = [] := by
    rw [List.dropWhile_eq_nil_iff]
    intro c hc
    simpa using ne_of_mem_of_not_mem hc h
  simp only [splitAssignment, hnone]

theorem splitAssignment_of_append {before value : List Char}
    (h : text.toList = before ++ '=' :: value) (hbefore : '=' ∉ before) :
    splitAssignment option text =
      if Text.trim before = [] then .error (Cause.invalidAssignment option text).error
      else .ok (String.ofList (Text.trim before), String.ofList value) := by
  have hplain : ∀ c ∈ before, (c != '=') = true := by
    intro c hc
    simpa using ne_of_mem_of_not_mem hc hbefore
  simp only [splitAssignment, h, List.takeWhile_append_of_pos hplain,
    List.dropWhile_append_of_pos hplain]
  simp

/-- A text without an equals sign is keyless; any other is split at the first one. -/
theorem exists_split (text : String) :
    '=' ∉ text.toList ∨ ∃ before value, text.toList = before ++ '=' :: value ∧ '=' ∉ before := by
  by_cases h : '=' ∈ text.toList
  · obtain ⟨before, value, hsplit, hbefore⟩ := List.eq_append_cons_of_mem h
    exact .inr ⟨before, value, hsplit, hbefore⟩
  · exact .inl h

theorem splitAssignment_eq_ok_iff {key value : String} :
    splitAssignment option text = .ok (key, value) ↔ Assigns text key value := by
  constructor
  · intro h
    rcases exists_split text with hnone | ⟨before, rest, hsplit, hbefore⟩
    · rw [splitAssignment_of_notMem hnone] at h
      cases h
    · rw [splitAssignment_of_append hsplit hbefore] at h
      split at h
      · cases h
      · next hkey =>
          cases h
          rw [Text.trim_eq_nil_iff] at hkey
          exact ⟨before, by simpa using hsplit, hbefore, hkey, String.toList_ofList⟩
  · rintro ⟨before, hsplit, hbefore, hkey, htrim⟩
    rw [splitAssignment_of_append hsplit hbefore, if_neg (by rwa [Text.trim_eq_nil_iff]), ← htrim,
      String.ofList_toList, String.ofList_toList]

theorem splitAssignment_fails_iff :
    (∃ e, splitAssignment option text = .error e) ↔ Keyless text := by
  constructor
  · rintro ⟨e, h⟩
    rcases exists_split text with hnone | ⟨before, rest, hsplit, hbefore⟩
    · exact .inl hnone
    · rw [splitAssignment_of_append hsplit hbefore] at h
      split at h
      · next hkey => exact .inr ⟨before, rest, hsplit, hbefore, Text.trim_eq_nil_iff.mp hkey⟩
      · cases h
  · rintro (hnone | ⟨before, rest, hsplit, hbefore, hblank⟩)
    · exact ⟨_, splitAssignment_of_notMem hnone⟩
    · rw [splitAssignment_of_append hsplit hbefore, if_pos (Text.trim_eq_nil_iff.mpr hblank)]
      exact ⟨_, rfl⟩

theorem kind_of_splitAssignment_error {e : Error} (h : splitAssignment option text = .error e) :
    e.kind = .usage := by
  unfold splitAssignment at h
  dsimp only at h
  split at h
  · split at h
    · cases h
      rfl
    · cases h
  · cases h
    rfl

/-! ## Metadata -/

/-- The entry is what the assignment says. -/
def AssignsEntry (text : String) (entry : String × Scalar) : Prop :=
  ∃ value, Assigns text entry.1 value ∧ Scalar.StandsFor value entry.2

variable {arguments : List String}

theorem metadataOfAssignments_fails_iff :
    (∃ e, metadataOfAssignments arguments = .error e) ↔ ∃ text ∈ arguments, Keyless text := by
  simp only [metadataOfAssignments, map_eq_error_iff, mapM_fails_iff, splitAssignment_fails_iff]

theorem kind_of_metadataOfAssignments_error {e : Error}
    (h : metadataOfAssignments arguments = .error e) : e.kind = .usage := by
  rw [metadataOfAssignments, map_eq_error_iff] at h
  obtain ⟨text, -, htext⟩ := exists_mem_of_mapM_eq_error h
  exact kind_of_splitAssignment_error (map_eq_error_iff.mp htext)

/-- The metadata is made of the entries that the assignments say, in their order. -/
theorem exists_entries_of_metadataOfAssignments {m : Metadata}
    (h : metadataOfAssignments arguments = .ok m) :
    ∃ entries, List.Forall₂ AssignsEntry arguments entries ∧ m = .ofList entries := by
  obtain ⟨entries, hentries, rfl⟩ := map_eq_ok_iff.mp h
  refine ⟨entries, (mapM_eq_ok_iff.mp hentries).imp fun text entry hentry => ?_, rfl⟩
  obtain ⟨⟨key, value⟩, hsplit, rfl⟩ := map_eq_ok_iff.mp hentry
  exact ⟨value, splitAssignment_eq_ok_iff.mp hsplit, standsFor_scalarOfText value⟩

/-- An assignment never brings in an infinity. -/
theorem isFinite_of_metadataOfAssignments {m : Metadata}
    (h : metadataOfAssignments arguments = .ok m) : m.IsFinite := by
  obtain ⟨entries, hentries, rfl⟩ := exists_entries_of_metadataOfAssignments h
  apply Codec.isFinite_ofList
  intro entry hmem
  obtain ⟨text, -, value, -, hvalue⟩ := exists_of_forall₂ hentries.flip hmem
  exact hvalue.isFinite

end CommandLine

end DataCatalog
