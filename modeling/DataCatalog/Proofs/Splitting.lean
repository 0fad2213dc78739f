import DataCatalog.Url.Parser
import Mathlib

/-!
# Splitting texts

A text is split at all separators or before the first one.  Text without separators is kept whole,
and what is put together of such texts is taken apart again.
-/

namespace DataCatalog.Url

variable {separator : Char → Bool} {s part : List Char} {c : Char}

/-! ## At all separators -/

theorem splitOn_eq_splitOnP (separator : Char → Bool) (s : List Char) :
    splitOn separator s = s.splitOnP separator := by
  induction s with
  | nil => exact List.splitOnP_nil.symm
  | cons c rest ih =>
      rw [List.splitOnP_cons_eq_if_modifyHead, splitOn, ih]
      split
      · rfl
      · cases hparts : rest.splitOnP separator with
        | nil => exact absurd hparts (List.splitOnP_ne_nil _ _)
        | cons part parts => rfl

theorem splitOn_ne_nil (separator : Char → Bool) (s : List Char) : splitOn separator s ≠ [] := by
  rw [splitOn_eq_splitOnP]
  exact List.splitOnP_ne_nil _ _

theorem intercalate_splitOn (separator : Char) (s : List Char) :
    [separator].intercalate (splitOn (· == separator) s) = s := by
  rw [splitOn_eq_splitOnP]
  exact List.intercalate_splitOn separator

theorem splitOn_injective (separator : Char) : Function.Injective (splitOn (· == separator)) := by
  intro s t h
  rw [← intercalate_splitOn separator s, h, intercalate_splitOn]

theorem splitOn_intercalate {separator : Char} {parts : List (List Char)}
    (h : ∀ part ∈ parts, separator ∉ part) (hne : parts ≠ []) :
    splitOn (· == separator) ([separator].intercalate parts) = parts := by
  rw [splitOn_eq_splitOnP]
  exact List.splitOn_intercalate separator h hne

theorem splitOn_cons (h : separator c = false) (s : List Char) :
    splitOn separator (c :: s) = (splitOn separator s).modifyHead (c :: ·) := by
  rw [splitOn_eq_splitOnP, splitOn_eq_splitOnP, List.splitOnP_cons_eq_if_modifyHead,
    if_neg (by simp [h])]

theorem splitOn_append_cons (hc : separator c = true) (s rest : List Char) :
    splitOn separator (s ++ c :: rest) = splitOn separator s ++ splitOn separator rest := by
  simp only [splitOn_eq_splitOnP]
  exact List.splitOnP_append_cons s rest hc

theorem splitOn_of_forall (h : ∀ c ∈ s, separator c = false) : splitOn separator s = [s] := by
  rw [splitOn_eq_splitOnP]
  exact List.splitOnP_eq_singleton fun c hc => by simp [h c hc]

theorem splitOn_of_notMem {separator : Char} (h : separator ∉ s) :
    splitOn (· == separator) s = [s] := by
  refine splitOn_of_forall fun c hc => ?_
  have hne : c ≠ separator := fun heq => h (heq ▸ hc)
  simpa using hne

/-- What stands behind a text adds to its last part, up to the first separator. -/
theorem exists_splitOn_append (separator : Char → Bool) (s : List Char) :
    ∃ front last, splitOn separator s = front ++ [last] ∧
      ∀ t, splitOn separator (s ++ t) = front ++ (splitOn separator t).modifyHead (last ++ ·) := by
  induction s with
  | nil => exact ⟨[], [], rfl, fun t => (congrFun List.modifyHead_id _).symm⟩
  | cons c s ih =>
      obtain ⟨front, last, hsplit, happend⟩ := ih
      by_cases hc : separator c = true
      · refine ⟨[] :: front, last, ?_, fun t => ?_⟩
        · rw [splitOn, if_pos hc, hsplit, List.cons_append]
        · rw [List.cons_append, splitOn, if_pos hc, happend, List.cons_append]
      · have hplain : separator c = false := by simpa using hc
        cases front with
        | nil =>
            refine ⟨[], c :: last, ?_, fun t => ?_⟩
            · rw [splitOn_cons hplain, hsplit]
              rfl
            · rw [List.cons_append, splitOn_cons hplain, happend, List.nil_append,
                List.modifyHead_modifyHead]
              rfl
        | cons first front =>
            refine ⟨(c :: first) :: front, last, ?_, fun t => ?_⟩
            · rw [splitOn_cons hplain, hsplit]
              rfl
            · rw [List.cons_append, splitOn_cons hplain, happend]
              rfl

/-! ## Parts -/

/-- A character before a text is a separator, or it belongs to the first part. -/
theorem mem_splitOn_cons (h : part ∈ splitOn separator (c :: s)) :
    part = [] ∨ part ∈ splitOn separator s ∨
      ∃ first ∈ splitOn separator s, separator c = false ∧ part = c :: first := by
  cases hc : separator c with
  | true =>
      rw [splitOn, if_pos hc] at h
      exact (List.mem_cons.mp h).imp id .inl
  | false =>
      obtain ⟨first, more, hparts⟩ := List.exists_cons_of_ne_nil (splitOn_ne_nil separator s)
      rw [splitOn_cons hc, hparts, List.modifyHead_cons] at h
      rw [hparts]
      rcases List.mem_cons.mp h with hfirst | hmore
      · exact .inr (.inr ⟨first, List.mem_cons_self, rfl, hfirst⟩)
      · exact .inr (.inl (List.mem_cons_of_mem _ hmore))

theorem sublist_of_mem_splitOn (h : part ∈ splitOn separator s) : part.Sublist s := by
  induction s generalizing part with
  | nil =>
      cases List.mem_singleton.mp h
      exact .slnil
  | cons c s ih =>
      rcases mem_splitOn_cons h with rfl | hrest | ⟨first, hfirst, -, rfl⟩
      · exact List.nil_sublist _
      · exact (ih hrest).cons c
      · exact (ih hfirst).cons_cons c

theorem mem_of_mem_splitOn (hpart : part ∈ splitOn separator s) (hc : c ∈ part) : c ∈ s :=
  (sublist_of_mem_splitOn hpart).subset hc

theorem not_separator_of_mem_splitOn (hpart : part ∈ splitOn separator s) (hc : c ∈ part) :
    separator c = false := by
  induction s generalizing part with
  | nil =>
      cases List.mem_singleton.mp hpart
      cases hc
  | cons d s ih =>
      rcases mem_splitOn_cons hpart with rfl | hrest | ⟨first, hfirst, hplain, rfl⟩
      · cases hc
      · exact ih hrest hc
      · rcases List.mem_cons.mp hc with rfl | hmem
        · exact hplain
        · exact ih hfirst hmem

theorem notMem_of_splitOn_eq_singleton {separator : Char}
    (h : splitOn (· == separator) s = [part]) : separator ∉ s := by
  have hs : part = s := by
    have hjoin := intercalate_splitOn separator s
    rwa [h, List.intercalate_singleton] at hjoin
  intro hmem
  have hpart : part ∈ splitOn (· == separator) s := h ▸ List.mem_singleton_self part
  exact absurd (not_separator_of_mem_splitOn hpart (hs ▸ hmem)) (by simp)

/-! ## Before the first one -/

theorem splitBefore_append_of_forall (h : ∀ c ∈ s, separator c = false) (rest : List Char) :
    splitBefore separator (s ++ rest) =
      (s ++ (splitBefore separator rest).1, (splitBefore separator rest).2) := by
  have hkept : ∀ c ∈ s, (!separator c) = true := fun c hc => by simp [h c hc]
  rw [splitBefore, List.takeWhile_append_of_pos hkept, List.dropWhile_append_of_pos hkept]
  rfl

theorem splitBefore_of_forall (h : ∀ c ∈ s, separator c = false) :
    splitBefore separator s = (s, []) := by
  have hsplit := splitBefore_append_of_forall h []
  simpa [splitBefore] using hsplit

theorem splitBefore_append {rest : List Char} (hs : ∀ d ∈ s, separator d = false)
    (hc : separator c = true) : splitBefore separator (s ++ c :: rest) = (s, c :: rest) := by
  rw [splitBefore_append_of_forall hs]
  simp [splitBefore, hc]

end DataCatalog.Url
