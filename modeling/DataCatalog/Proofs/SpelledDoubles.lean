import DataCatalog.Proofs.SpelledNumbers

/-!
# Which doubles a text spells

A double is spelled by a decimal number: digits with a point among them or without one, an optional
power of ten and an optional sign.  The reader splits such a text greedily, which is the only way to
split it, because what stands behind digits begins with no digit.  The names of infinities and of
what is no number spell no finite double.
-/

namespace DataCatalog.Binary64

/-- The digits behind a point; without a point there are none. -/
inductive Fraction : List Char → List Char → Prop
  | absent : Fraction [] []
  | present (digits : List Char) : Fraction ('.' :: digits) digits

/-- A signed whole number behind the letter `e`; without the letter the number is zero. -/
inductive Power : List Char → Int → Prop
  | absent : Power [] 0
  | present {letter : Char} {digits : List Char} {n : Int} (hletter : letter = 'e' ∨ letter = 'E')
      (hdigits : Text.SpellsInt digits n) : Power (letter :: digits) n

/-- The text is a decimal number without a sign. -/
def SpellsDecimal (s : List Char) (d : Decimal) : Prop :=
  ∃ whole point fraction power exponent,
    s = whole ++ point ++ power ∧ Fraction point fraction ∧ Power power exponent ∧
    whole ++ fraction ≠ [] ∧ (∀ c ∈ whole ++ fraction, c.isDigit = true) ∧
    d = ⟨Nat.ofDigitChars 10 (whole ++ fraction) 0, exponent - fraction.length⟩

/-- The text is a decimal number, and the double is the nearest one to it. -/
def Spells (s : List Char) (x : Binary64) : Prop :=
  ∃ negative body d, Text.Signed s negative body ∧ SpellsDecimal body d ∧ x = d.toBinary64 negative

/-! ## Powers of ten -/

theorem exponent?_cons_of_letter {letter : Char} (h : letter = 'e' ∨ letter = 'E')
    {rest : List Char} {n : Int} :
    exponent? (letter :: rest) = some n ↔ Text.SpellsInt rest n := by
  have hdigits : (splitSign rest).2 ≠ [] ∧ (splitSign rest).2.all Char.isDigit = true ↔
      Text.Digits (splitSign rest).2 (Nat.ofDigitChars 10 (splitSign rest).2 0) := by
    simp [Text.Digits]
  rw [exponent?, if_pos h, Text.spellsInt_iff]
  dsimp only
  split
  · next hcondition =>
      rw [Option.some.injEq]
      constructor
      · rintro rfl
        exact ⟨_, hdigits.mp hcondition, rfl⟩
      · rintro ⟨m, hm, rfl⟩
        rw [(hm.2.2 : _ = m)]
  · next hcondition =>
      have hnone : ∀ m, ¬Text.Digits (splitSign rest).2 m := by
        intro m hm
        exact hcondition (hdigits.mpr ⟨hm.1, hm.2.1, rfl⟩)
      simp [hnone]

theorem exponent?_eq_some_iff {s : List Char} {n : Int} : exponent? s = some n ↔ Power s n := by
  cases s with
  | nil =>
      constructor
      · intro h
        cases h
        exact .absent
      · rintro ⟨⟩
        rfl
  | cons letter rest =>
      by_cases hletter : letter = 'e' ∨ letter = 'E'
      · rw [exponent?_cons_of_letter hletter]
        constructor
        · exact .present hletter
        · rintro ⟨⟩
          assumption
      · constructor
        · intro h
          rw [exponent?, if_neg hletter] at h
          cases h
        · rintro ⟨⟩
          contradiction

/-! ## Decimals -/

/-- Digits are split off as far as they go. -/
theorem span_digits {s rest : List Char} (hs : ∀ c ∈ s, c.isDigit = true)
    (hrest : ∀ c, rest.head? = some c → c.isDigit = false) :
    (s ++ rest).takeWhile Char.isDigit = s ∧ (s ++ rest).dropWhile Char.isDigit = rest := by
  rw [List.takeWhile_append_of_pos hs, List.dropWhile_append_of_pos hs]
  cases rest with
  | nil => simp
  | cons c rest => simp [hrest c rfl]

/-- The digits behind a point, if there is one, and what follows. -/
def splitFraction : List Char → List Char × List Char
  | '.' :: rest => (rest.takeWhile Char.isDigit, rest.dropWhile Char.isDigit)
  | rest => ([], rest)

theorem decimal?_eq (s : List Char) :
    decimal? s =
      let whole := s.takeWhile Char.isDigit
      let (fraction, power) := splitFraction (s.dropWhile Char.isDigit)
      if whole ++ fraction = [] then none
      else (exponent? power).map fun exponent =>
        ⟨Nat.ofDigitChars 10 (whole ++ fraction) 0, exponent - fraction.length⟩ := rfl

theorem exists_point_of_splitFraction (s : List Char) :
    ∃ point, s = point ++ (splitFraction s).2 ∧ Fraction point (splitFraction s).1 ∧
      ∀ c ∈ (splitFraction s).1, c.isDigit = true := by
  unfold splitFraction
  split
  · next rest =>
      refine ⟨'.' :: rest.takeWhile Char.isDigit, ?_, .present _, ?_⟩
      · rw [List.cons_append, List.takeWhile_append_dropWhile]
      · exact fun c hc => List.mem_takeWhile_imp hc
  · exact ⟨[], rfl, .absent, by simp⟩

theorem Power.isDigit_head {s : List Char} {n : Int} (h : Power s n) {c : Char}
    (hc : s.head? = some c) : c.isDigit = false := by
  cases h with
  | absent => cases hc
  | present hletter =>
      cases hc
      rcases hletter with rfl | rfl <;> decide

/-- There is only one way to split off a fraction. -/
theorem splitFraction_append {point fraction power : List Char} {exponent : Int}
    (hfraction : Fraction point fraction) (hpower : Power power exponent)
    (hdigits : ∀ c ∈ fraction, c.isDigit = true) :
    splitFraction (point ++ power) = (fraction, power) := by
  cases hfraction with
  | absent =>
      rw [List.nil_append, splitFraction.eq_def]
      split
      · cases hpower with
        | present hletter => simp at hletter
      · rfl
  | present =>
      have hspan := span_digits hdigits fun c => hpower.isDigit_head
      simp only [List.cons_append, splitFraction, hspan.1, hspan.2]

theorem Fraction.isDigit_head {point fraction power : List Char} {exponent : Int}
    (hfraction : Fraction point fraction) (hpower : Power power exponent) {c : Char}
    (hc : (point ++ power).head? = some c) : c.isDigit = false := by
  cases hfraction with
  | absent => exact hpower.isDigit_head hc
  | present =>
      cases hc
      rfl

theorem decimal?_eq_some_iff {s : List Char} {d : Decimal} :
    decimal? s = some d ↔ SpellsDecimal s d := by
  constructor
  · intro h
    obtain ⟨point, hsplit, hfraction, hafter⟩ :=
      exists_point_of_splitFraction (s.dropWhile Char.isDigit)
    rw [decimal?_eq] at h
    dsimp only at h
    split at h
    · cases h
    · next hdigit =>
        obtain ⟨exponent, hexponent, rfl⟩ := Option.map_eq_some_iff.mp h
        refine ⟨s.takeWhile Char.isDigit, point, _, _, exponent, ?_, hfraction,
          exponent?_eq_some_iff.mp hexponent, hdigit, ?_, rfl⟩
        · rw [List.append_assoc, ← hsplit, List.takeWhile_append_dropWhile]
        · exact List.forall_mem_append.mpr ⟨fun c hc => List.mem_takeWhile_imp hc, hafter⟩
  · rintro ⟨whole, point, fraction, power, exponent, rfl, hfraction, hpower, hdigit, hdigits, rfl⟩
    obtain ⟨hwhole, hafter⟩ := List.forall_mem_append.mp hdigits
    have hspan := span_digits hwhole fun c => hfraction.isDigit_head hpower
    rw [List.append_assoc, decimal?_eq, hspan.1, hspan.2,
      splitFraction_append hfraction hpower hafter]
    simp only [if_neg hdigit, exponent?_eq_some_iff.mpr hpower, Option.map_some]

/-! ## Doubles -/

theorem SpellsDecimal.head_ne {s : List Char} {d : Decimal} (h : SpellsDecimal s d) {c : Char}
    (hc : c = '-' ∨ c = '+') : s.head? ≠ some c := by
  obtain ⟨whole, point, fraction, power, exponent, rfl, hfraction, -, hdigit, hdigits, -⟩ := h
  have hplain : c.isDigit = false ∧ '.' ≠ c := by
    rcases hc with rfl | rfl <;> decide
  intro hhead
  cases whole with
  | cons first rest =>
      simp only [List.cons_append, List.head?_cons, Option.some.injEq] at hhead
      have hfirst := hdigits first List.mem_cons_self
      rw [hhead, hplain.1] at hfirst
      cases hfirst
  | nil =>
      cases hfraction with
      | absent => exact hdigit rfl
      | present => exact hplain.2 (Option.some_inj.mp hhead)

theorem decimal?_splitSign_eq_some_iff {s : List Char} {d : Decimal} {negative : Bool} :
    (splitSign s).1 = negative ∧ decimal? (splitSign s).2 = some d ↔
      ∃ body, Text.Signed s negative body ∧ SpellsDecimal body d := by
  constructor
  · rintro ⟨rfl, h⟩
    exact ⟨_, Text.signed_splitSign s, decimal?_eq_some_iff.mp h⟩
  · rintro ⟨body, hsign, hbody⟩
    rw [hsign.splitSign_eq (hbody.head_ne (.inl rfl)) (hbody.head_ne (.inr rfl))]
    exact ⟨rfl, decimal?_eq_some_iff.mpr hbody⟩

/-- Exactly the spellings of finite doubles are read as such. -/
theorem parse?_eq_some_iff {s : List Char} {x : Binary64} (h : x.isFinite = true) :
    parse? s = some x ↔ Spells s x := by
  have hspells : Spells s x ↔
      ∃ d, decimal? (splitSign s).2 = some d ∧ d.toBinary64 (splitSign s).1 = x := by
    constructor
    · rintro ⟨negative, body, d, hsign, hbody, rfl⟩
      obtain ⟨rfl, hd⟩ := decimal?_splitSign_eq_some_iff.mpr ⟨body, hsign, hbody⟩
      exact ⟨d, hd, rfl⟩
    · rintro ⟨d, hd, rfl⟩
      obtain ⟨body, hsign, hbody⟩ := decimal?_splitSign_eq_some_iff.mp ⟨rfl, hd⟩
      exact ⟨_, body, d, hsign, hbody, rfl⟩
  rw [hspells, parse?]
  dsimp only
  split
  · next d hd => simp [hd]
  · next hnone =>
      simp only [hnone, reduceCtorEq, false_and, exists_false, iff_false]
      split
      · rintro ⟨⟩
        cases h
      · split
        · rintro ⟨⟩
          cases h
        · simp

end DataCatalog.Binary64
