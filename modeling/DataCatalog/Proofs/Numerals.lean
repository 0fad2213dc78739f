import DataCatalog.Json.Reader
import DataCatalog.Json.Writer
import DataCatalog.Proofs.ShortestDigits

/-!
# Numbers are read back

Each number of a document is written as a numeral, and a numeral is scanned back from its spelling.
A whole number is then read as it was.  A double is read as a finite double again, if not always as
the same one: its digits are read as its shortest digits in the range of 16 powers of ten in which
they are written with a point and as a significand with an exponent otherwise.
-/

namespace DataCatalog.Json

variable {rest : List Char}

/-- The characters that may stand behind a value. -/
def closers : List Char :=
  [',', ']', '\x7d', ' ', '\t', '\n', '\r']

/-- Nothing of the text belongs to a value in front of it. -/
def Closing (rest : List Char) : Prop :=
  ∀ c ∈ rest.head?, c ∈ closers

theorem closing_cons {c : Char} (h : c ∈ closers) (rest : List Char) : Closing (c :: rest) := by
  simpa [Closing] using h

theorem head?_toDigits_ne {n : Nat} (h : n ≠ 0) : (Nat.toDigits 10 n).head? ≠ some '0' := by
  induction n using Nat.strongRecOn with
  | _ n ih =>
      rw [Nat.toDigits_eq_if (by decide)]
      split
      · next hsmall =>
          have hall : ∀ digit : Fin 10, digit.val ≠ 0 →
              [digit.val.digitChar].head? ≠ some '0' := by decide
          exact hall ⟨n, hsmall⟩ h
      · next hlarge =>
          have hquotient : n / 10 ≠ 0 := by omega
          rw [List.head?_append_of_ne_nil _ Nat.toDigits_ne_nil]
          exact ih (n / 10) (by omega) hquotient

namespace Numeral

/-! ## Numerals are scanned -/

/-- The text is a run of digits. -/
structure IsRun (s : List Char) : Prop where
  nonempty : s ≠ []
  digits : ∀ c ∈ s, c.isDigit = true

/-- No digit and no point follows. -/
def EndsWhole (rest : List Char) : Prop :=
  ∀ c ∈ rest.head?, c.isDigit = false ∧ c ≠ '.'

/-- The parts are runs of digits, and a leading zero stands alone. -/
structure Valid (n : Numeral) : Prop where
  whole : IsRun n.whole
  leading : n.whole.head? = some '0' → n.whole = ['0']
  fraction : ∀ digits ∈ n.fraction, IsRun digits
  exponent : ∀ part ∈ n.exponent, IsRun part.2

def spellFraction : Option (List Char) → List Char
  | none => []
  | some digits => '.' :: digits

def spellExponent : Option (Bool × List Char) → List Char
  | none => []
  | some (negative, digits) => 'e' :: (if negative then '-' else '+') :: digits

/-- The text of a numeral, with a sign in front of each exponent. -/
def spell (n : Numeral) : List Char :=
  (if n.negative then ['-'] else []) ++ n.whole ++ spellFraction n.fraction
    ++ spellExponent n.exponent

theorem IsRun.append {s t : List Char} (hs : IsRun s) (ht : ∀ c ∈ t, c.isDigit = true) :
    IsRun (s ++ t) where
  nonempty := List.append_ne_nil_of_left_ne_nil hs.nonempty t
  digits := List.forall_mem_append.mpr ⟨hs.digits, ht⟩

theorem isRun_toDigits (n : Nat) : IsRun (Nat.toDigits 10 n) where
  nonempty := Nat.toDigits_ne_nil
  digits _ hc := Nat.isDigit_of_mem_toDigits (by decide) (by decide) hc

theorem digits_append {s : List Char} (hs : IsRun s)
    (hend : ∀ c ∈ rest.head?, c.isDigit = false) : digits (s ++ rest) = .ok (s, rest) := by
  have hstop : rest.takeWhile Char.isDigit = [] ∧ rest.dropWhile Char.isDigit = rest := by
    cases rest with
    | nil => exact ⟨rfl, rfl⟩
    | cons c more => simp [hend c rfl]
  have htake : (s ++ rest).takeWhile Char.isDigit = s := by
    rw [List.takeWhile_append_of_pos hs.digits, hstop.1, List.append_nil]
  have hdrop : (s ++ rest).dropWhile Char.isDigit = rest := by
    rw [List.dropWhile_append_of_pos hs.digits, hstop.2]
  obtain ⟨c, more, rfl⟩ := List.exists_cons_of_ne_nil hs.nonempty
  have hc : c.isDigit = true := hs.digits c List.mem_cons_self
  have hscan : digits (c :: more ++ rest) =
      .ok ((c :: more ++ rest).takeWhile Char.isDigit,
        (c :: more ++ rest).dropWhile Char.isDigit) := if_pos hc
  rw [hscan, htake, hdrop]

theorem other_of_closing (h : Closing rest) :
    ∀ c ∈ rest.head?, c.isDigit = false ∧ c ≠ '.' ∧ ¬(c = 'e' ∨ c = 'E') := by
  have hall : ∀ c ∈ closers, c.isDigit = false ∧ c ≠ '.' ∧ ¬(c = 'e' ∨ c = 'E') := by
    simp [closers]
  exact fun c hc => hall c (h c hc)

theorem endsWhole_spellExponent (exponent : Option (Bool × List Char)) (h : Closing rest) :
    EndsWhole (spellExponent exponent ++ rest) := by
  cases exponent with
  | some part => simp [EndsWhole, spellExponent]
  | none =>
      intro c hc
      exact ⟨(other_of_closing h c hc).1, (other_of_closing h c hc).2.1⟩

theorem scanExponent_spell {exponent : Option (Bool × List Char)}
    (hrun : ∀ part ∈ exponent, IsRun part.2) (h : Closing rest) :
    scanExponent (spellExponent exponent ++ rest) = .ok (exponent, rest) := by
  cases exponent with
  | none =>
      cases rest with
      | nil => rfl
      | cons c more => exact if_neg (other_of_closing h c rfl).2.2
  | some part =>
      obtain ⟨negative, s⟩ := part
      have hdigits := digits_append (hrun _ rfl) fun c hc => (other_of_closing h c hc).1
      cases negative <;>
        simp [spellExponent, scanExponent, hdigits, bind, Except.bind]

theorem scanFraction_spell {fraction : Option (List Char)} (hrun : ∀ s ∈ fraction, IsRun s)
    (h : EndsWhole rest) :
    scanFraction (spellFraction fraction ++ rest) = .ok (fraction, rest) := by
  cases fraction with
  | none =>
      cases rest with
      | nil => rfl
      | cons c more =>
          have hpoint : c ≠ '.' := (h c rfl).2
          simp only [spellFraction, List.nil_append, scanFraction]
          split
          · next heq => exact absurd (List.cons.inj heq).1 hpoint
          · rfl
  | some s =>
      have hdigits := digits_append (hrun s rfl) fun c hc => (h c hc).1
      simp [spellFraction, scanFraction, hdigits, bind, Except.bind]

theorem scanWhole_append {s : List Char} (hrun : IsRun s)
    (hleading : s.head? = some '0' → s = ['0']) (hend : ∀ c ∈ rest.head?, c.isDigit = false) :
    scanWhole (s ++ rest) = .ok (s, rest) := by
  rw [scanWhole, digits_append hrun hend]
  apply if_neg
  rintro ⟨hzero, hlong⟩
  exact hlong (hleading hzero)

theorem isDigit_spellFraction (fraction : Option (List Char)) (h : EndsWhole rest) :
    ∀ c ∈ (spellFraction fraction ++ rest).head?, c.isDigit = false := by
  cases fraction with
  | none => exact fun c hc => (h c hc).1
  | some s => simp [spellFraction]

theorem scan_spell {n : Numeral} (hvalid : n.Valid) (h : Closing rest) :
    scan (n.spell ++ rest) = .ok (n, rest) := by
  obtain ⟨negative, whole, fraction, exponent⟩ := n
  have hexponent := scanExponent_spell hvalid.exponent h
  have hends := endsWhole_spellExponent exponent h
  have hfraction := scanFraction_spell hvalid.fraction hends
  have hwhole := scanWhole_append hvalid.whole hvalid.leading
    (isDigit_spellFraction fraction hends)
  dsimp only at hexponent hends hfraction hwhole
  cases negative with
  | true =>
      simp only [spell, if_true, List.append_assoc, List.cons_append, List.nil_append]
      rw [scan]
      simp only [hwhole, hfraction, hexponent, bind, Except.bind]
  | false =>
      have hsign : ∀ more, whole ++ (spellFraction fraction ++ (spellExponent exponent ++ rest)) ≠
          '-' :: more := by
        intro more hminus
        obtain ⟨c, s, hcons⟩ := List.exists_cons_of_ne_nil hvalid.whole.nonempty
        dsimp only at hcons
        have hc : c.isDigit = true := hvalid.whole.digits c (hcons ▸ List.mem_cons_self)
        rw [hcons, List.cons_append] at hminus
        rw [(List.cons.inj hminus).1] at hc
        exact absurd hc (by decide)
      simp only [spell, Bool.false_eq_true, if_false, List.append_assoc, List.nil_append]
      rw [scan]
      · simp only [hwhole, hfraction, hexponent, bind, Except.bind]
      · exact hsign

/-! ## Significands -/

theorem significand_gather_lt {significand : Nat} (h : significand < 2 ^ 64) (kept : Nat)
    (s : List Char) : (gather significand kept s).significand < 2 ^ 64 := by
  induction s generalizing significand kept with
  | nil => exact h
  | cons c s ih =>
      unfold gather
      dsimp only
      split
      · next hnext => exact ih hnext _
      · exact h

theorem dropped_gather_le (significand kept : Nat) (s : List Char) :
    (gather significand kept s).dropped ≤ s.length := by
  induction s generalizing significand kept with
  | nil => exact Nat.le_refl _
  | cons c s ih =>
      unfold gather
      dsimp only
      split
      · exact (ih _ _).trans (Nat.le_succ _)
      · exact Nat.le_refl _

theorem le_ofDigitChars (s : List Char) (n : Nat) : n ≤ Nat.ofDigitChars 10 s n := by
  induction s generalizing n with
  | nil => exact Nat.le_refl _
  | cons c s ih =>
      rw [Nat.ofDigitChars_cons]
      exact le_trans (by omega) (ih _)

/-- Digits whose value 64 bits hold are all kept. -/
theorem gather_of_lt {significand : Nat} {s : List Char}
    (h : Nat.ofDigitChars 10 s significand < 2 ^ 64) (kept : Nat) :
    gather significand kept s = ⟨Nat.ofDigitChars 10 s significand, kept + s.length, 0⟩ := by
  induction s generalizing significand kept with
  | nil => rfl
  | cons c s ih =>
      rw [Nat.ofDigitChars_cons] at h ⊢
      have hnext : 10 * significand + (c.toNat - '0'.toNat) < 0x10000000000000000 :=
        (le_ofDigitChars s _).trans_lt h
      unfold gather
      dsimp only
      rw [if_pos hnext, ih h, List.length_cons, Nat.add_right_comm, Nat.add_assoc]

theorem exists_signed_eq_ok {x : Binary64} (h : x.isFinite = true) (negative : Bool) :
    ∃ y, signed negative x = .ok (.float y) := by
  cases x with
  | finite x => exact ⟨_, rfl⟩
  | nan => cases h
  | infinite sign => cases h

/-- A short numeral without a positive exponent is read as a finite double. -/
theorem exists_toDouble_of_short {n : Numeral} (hshort : n.whole.length ≤ 288)
    (hexponent : ∀ part ∈ n.exponent, part.1 = true) : ∃ y, n.toDouble = .ok (.float y) := by
  obtain ⟨negative, whole, fraction, exponent⟩ := n
  have hzero : (0 : Nat) < 2 ^ 64 := by decide
  have hword := significand_gather_lt (significand_gather_lt hzero 0 whole) 0 (fraction.getD [])
  have hdropped := dropped_gather_le 0 0 whole
  dsimp only at hshort hexponent
  unfold toDouble
  dsimp only
  cases exponent with
  | none =>
      apply exists_signed_eq_ok
      apply isFinite_scale_of_word (Nat.le_of_lt hword)
      omega
  | some part =>
      obtain ⟨sign, digits⟩ := part
      have hsign : sign = true := hexponent _ rfl
      subst hsign
      dsimp only
      split
      · rw [if_neg (by simp)]
        exact ⟨_, rfl⟩
      · apply exists_signed_eq_ok
        apply isFinite_scale_of_word (Nat.le_of_lt hword)
        rw [if_pos rfl]
        omega

/-- Where the digits of a numeral with an exponent fit, they are read with the power of ten that
they are written with. -/
theorem toDouble_of_lt {n : Numeral} {negative : Bool} {size : Nat}
    (hexponent : n.exponent = some (negative, Nat.toDigits 10 size)) (hsize : size ≤ exponentLimit)
    (hword : Nat.ofDigitChars 10 (n.whole ++ n.fraction.getD []) 0 < 2 ^ 64) :
    n.toDouble = signed n.negative (scale (Nat.ofDigitChars 10 (n.whole ++ n.fraction.getD []) 0)
      (max (-0x80000000) (min 0x7FFFFFFF
        (-(n.fraction.getD []).length + if negative then -(size : Int) else size)))) := by
  rw [Nat.ofDigitChars_append] at hword ⊢
  have hwhole := gather_of_lt ((le_ofDigitChars _ _).trans_lt hword) 0
  have hall := gather_of_lt hword 0
  unfold toDouble
  simp only [hwhole, hall, hexponent, Nat.ofDigitChars_ten_toDigits, Nat.zero_add,
    if_neg (Nat.not_lt.mpr hsize), Int.natCast_zero, zero_sub]

theorem le_of_isFinite_scale {significand : Nat} {exponent : Int} (hne : significand ≠ 0)
    (h : (scale significand exponent).isFinite = true) : exponent ≤ 308 := by
  by_contra hlarge
  rw [scale, if_neg hne, if_pos (by omega)] at h
  cases h

/-! ## The numeral of a double -/

def positional (negative : Bool) (d : Decimal) : Numeral :=
  if 0 ≤ d.exponent then
    ⟨negative, d.digits ++ List.replicate d.exponent.toNat '0', some ['0'], none⟩
  else
    let places := (-d.exponent).toNat
    let digits := List.replicate (places + 1 - d.digits.length) '0' ++ d.digits
    ⟨negative, digits.take (digits.length - places), some (digits.drop (digits.length - places)),
      none⟩

def scientific (negative : Bool) (d : Decimal) : Numeral :=
  let exponent := some (decide (d.leading < 0), Nat.toDigits 10 d.leading.natAbs)
  match d.digits with
  | first :: second :: rest => ⟨negative, [first], some (second :: rest), exponent⟩
  | digits => ⟨negative, digits, none, exponent⟩

/-- The numeral as which a double with these digits is written. -/
def ofDecimal (negative : Bool) (d : Decimal) : Numeral :=
  if -5 ≤ d.leading ∧ d.leading < 16 then positional negative d else scientific negative d

theorem spell_positional (negative : Bool) (d : Decimal) :
    (positional negative d).spell = (if negative then ['-'] else []) ++ d.positional true := by
  unfold positional Decimal.positional
  split <;> simp [spell, spellFraction, spellExponent]

theorem spell_scientific (negative : Bool) (d : Decimal) :
    (scientific negative d).spell = (if negative then ['-'] else []) ++ d.scientific := by
  unfold scientific Decimal.scientific
  rcases d.digits with _ | ⟨first, _ | ⟨second, more⟩⟩ <;>
    simp [spell, spellFraction, spellExponent]

theorem isDigit_replicate_zero (n : Nat) : ∀ c ∈ List.replicate n '0', c.isDigit = true := by
  intro c hc
  rw [List.eq_of_mem_replicate hc]
  rfl

theorem isRun_digits (d : Decimal) : IsRun d.digits :=
  isRun_toDigits d.coefficient

theorem head?_digits_ne {d : Decimal} (h : d.coefficient ≠ 0) : d.digits.head? ≠ some '0' :=
  head?_toDigits_ne h

theorem valid_positional (negative : Bool) {d : Decimal} (h : d.Writable) :
    (positional negative d).Valid := by
  have hdigits : IsRun d.digits := isRun_digits d
  have hlength : 0 < d.digits.length := List.length_pos_of_ne_nil hdigits.nonempty
  unfold positional
  split
  · refine ⟨hdigits.append (isDigit_replicate_zero _), fun hzero => ?_, ?_, by simp⟩
    · dsimp only at hzero ⊢
      rw [List.head?_append_of_ne_nil _ hdigits.nonempty] at hzero
      have hd : d = ⟨0, 0⟩ := by
        by_contra hne
        exact head?_digits_ne (fun hcoefficient => hne (h.zero hcoefficient)) hzero
      rw [hd]
      rfl
    · rintro digits ⟨⟩
      exact ⟨by simp, by simp⟩
  · next hfraction =>
      have hplaces : 0 < (-d.exponent).toNat := by omega
      generalize (-d.exponent).toNat = places at hplaces ⊢
      have hpadded : ∀ c ∈ List.replicate (places + 1 - d.digits.length) '0' ++ d.digits,
          c.isDigit = true :=
        List.forall_mem_append.mpr ⟨isDigit_replicate_zero _, hdigits.digits⟩
      dsimp only
      refine ⟨⟨?_, fun c hc => hpadded c (List.mem_of_mem_take hc)⟩, fun hzero => ?_, ?_, by simp⟩
      · apply List.ne_nil_of_length_pos
        simp only [List.length_take, List.length_append, List.length_replicate]
        omega
      · dsimp only at hzero ⊢
        by_cases hpad : places + 1 ≤ d.digits.length
        -- Enough digits: the first one is not zero.
        · have hnone : places + 1 - d.digits.length = 0 := by omega
          rw [hnone, List.replicate_zero, List.nil_append, List.head?_take,
            if_neg (by omega)] at hzero
          have hd : d = ⟨0, 0⟩ := by
            by_contra hne
            exact head?_digits_ne (fun hcoefficient => hne (h.zero hcoefficient)) hzero
          rw [hd] at hfraction
          exact absurd (le_refl 0) hfraction
        -- Too few: a single zero is put in front of the point.
        · obtain ⟨zeros, hzeros⟩ := Nat.exists_eq_add_of_lt (Nat.lt_of_not_le hpad)
          have hone : (List.replicate (places + 1 - d.digits.length) '0' ++ d.digits).length
              - places = 1 := by
            simp only [List.length_append, List.length_replicate]
            omega
          have hcons : places + 1 - d.digits.length = zeros + 1 := by omega
          rw [hone, hcons, List.replicate_succ]
          rfl
      · rintro digits ⟨⟩
        refine ⟨?_, fun c hc => hpadded c (List.mem_of_mem_drop hc)⟩
        apply List.ne_nil_of_length_pos
        simp only [List.length_drop, List.length_append, List.length_replicate]
        omega

theorem exponent_scientific (negative : Bool) (d : Decimal) :
    (scientific negative d).exponent =
      some (decide (d.leading < 0), Nat.toDigits 10 d.leading.natAbs) := by
  unfold scientific
  dsimp only
  split <;> rfl

theorem length_whole_scientific (negative : Bool) (d : Decimal) :
    (scientific negative d).whole.length = 1 := by
  have hne : d.digits ≠ [] := (isRun_digits d).nonempty
  unfold scientific
  generalize d.digits = digits at hne ⊢
  rcases digits with _ | ⟨first, _ | ⟨second, more⟩⟩
  · exact absurd rfl hne
  · rfl
  · rfl

theorem digits_scientific (negative : Bool) (d : Decimal) :
    (scientific negative d).whole ++ (scientific negative d).fraction.getD [] = d.digits := by
  unfold scientific
  rcases d.digits with _ | ⟨first, _ | ⟨second, more⟩⟩ <;> rfl

theorem valid_scientific (negative : Bool) (d : Decimal) : (scientific negative d).Valid := by
  have hrun : IsRun d.digits := isRun_digits d
  have hone := length_whole_scientific negative d
  have hdigits := digits_scientific negative d
  obtain ⟨first, hwhole⟩ := List.length_eq_one_iff.mp hone
  refine ⟨⟨?_, fun c hc => hrun.digits c ?_⟩, fun hzero => ?_, ?_, ?_⟩
  · rw [hwhole]
    exact List.cons_ne_nil _ _
  · rw [← hdigits]
    exact List.mem_append_left _ hc
  · rw [hwhole] at hzero ⊢
    rw [Option.some.inj hzero]
  · intro digits hfraction
    refine ⟨?_, fun c hc => hrun.digits c ?_⟩
    · rintro rfl
      unfold scientific at hfraction
      rcases hd : d.digits with _ | ⟨first, _ | ⟨second, more⟩⟩ <;> simp [hd] at hfraction
    · rw [← hdigits, Option.mem_def.mp hfraction]
      exact List.mem_append_right _ hc
  · rw [exponent_scientific]
    rintro part ⟨⟩
    exact isRun_toDigits _

theorem length_whole_positional (negative : Bool) (d : Decimal) :
    ((positional negative d).whole.length : Int) = max 1 (d.leading + 1) := by
  have hlength : 0 < d.digits.length := List.length_pos_of_ne_nil (isRun_digits d).nonempty
  have hleading : d.leading = d.digits.length - 1 + d.exponent := rfl
  unfold positional
  split
  · simp only [List.length_append, List.length_replicate]
    omega
  · simp only [List.length_take, List.length_append, List.length_replicate]
    omega

theorem length_digits_le {d : Decimal} (h : d.coefficient ≤ 10 ^ 17) : d.digits.length ≤ 18 :=
  (Nat.length_toDigits_le_iff (by decide) (by decide)).mpr (h.trans_lt (by decide))

/-- Where the exponent is not too large, the digits are read with the power of ten that they are
written with. -/
theorem toDouble_scientific (negative : Bool) {d : Decimal} (hdigits : d.coefficient ≤ 10 ^ 17)
    (hlow : -416 ≤ d.exponent) (hhigh : d.exponent ≤ 308) :
    (scientific negative d).toDouble = signed negative (scale d.coefficient d.exponent) := by
  have hvalue : Nat.ofDigitChars 10 ((scientific negative d).whole
      ++ (scientific negative d).fraction.getD []) 0 = d.coefficient := by
    rw [digits_scientific]
    exact Nat.ofDigitChars_ten_toDigits
  have hlength : ((scientific negative d).fraction.getD []).length + 1 = d.digits.length := by
    rw [← digits_scientific negative d, List.length_append, length_whole_scientific, Nat.add_comm]
  have hcount : d.digits.length ≤ 18 := length_digits_le hdigits
  have hleading : d.leading = d.digits.length - 1 + d.exponent := rfl
  have hsize : d.leading.natAbs ≤ exponentLimit := by
    rw [exponentLimit]
    omega
  have hwritten : (if decide (d.leading < 0) then -(d.leading.natAbs : Int)
      else d.leading.natAbs) = d.leading := by
    by_cases hneg : d.leading < 0
    · rw [if_pos (decide_eq_true hneg)]
      omega
    · rw [if_neg (by simpa using hneg)]
      omega
  have htotal : max (-0x80000000) (min 0x7FFFFFFF
      (-(((scientific negative d).fraction.getD []).length : Int) + d.leading)) = d.exponent := by
    omega
  have hsign : (scientific negative d).negative = negative := by
    unfold scientific
    dsimp only
    split <;> rfl
  rw [toDouble_of_lt (exponent_scientific negative d) hsize
    (hvalue.trans_lt (hdigits.trans_lt (by decide))), hvalue, hwritten, htotal, hsign]

theorem exists_toDouble_scientific (negative : Bool) {d : Decimal} (h : d.Writable)
    (hne : d.coefficient ≠ 0) : ∃ y, (scientific negative d).toDouble = .ok (.float y) := by
  by_cases hneg : d.leading < 0
  · apply exists_toDouble_of_short
    · rw [length_whole_scientific]
      decide
    · rw [exponent_scientific]
      rintro part ⟨⟩
      exact decide_eq_true hneg
  · have hdigits : d.digits.length ≤ 18 := length_digits_le h.digits
    have hleading : d.leading = d.digits.length - 1 + d.exponent := rfl
    rw [toDouble_scientific negative h.digits (by omega) (le_of_isFinite_scale hne h.finite)]
    exact exists_signed_eq_ok h.finite negative

theorem isSome_ofDecimal (negative : Bool) (d : Decimal) :
    (ofDecimal negative d).fraction.isSome ∨ (ofDecimal negative d).exponent.isSome := by
  unfold ofDecimal
  split
  · unfold positional
    split <;> exact .inl rfl
  · rw [exponent_scientific]
    exact .inr rfl

/-! ## The numeral of a number -/

theorem valid_ofDecimal (negative : Bool) {d : Decimal} (h : d.Writable) :
    (ofDecimal negative d).Valid := by
  unfold ofDecimal
  split
  · exact valid_positional negative h
  · exact valid_scientific negative d

theorem exists_toDouble_ofDecimal (negative : Bool) {d : Decimal} (h : d.Writable) :
    ∃ y, (ofDecimal negative d).toDouble = .ok (.float y) := by
  unfold ofDecimal
  split
  · next hleading =>
      have hlength := length_whole_positional negative d
      apply exists_toDouble_of_short (by omega)
      unfold positional
      split <;> simp
  · next hleading =>
      apply exists_toDouble_scientific negative h
      intro hcoefficient
      rw [h.zero hcoefficient] at hleading
      exact hleading (by decide)

theorem toNumber_digits {n : Int} (lower : -0x8000000000000000 ≤ n)
    (upper : n < 0x10000000000000000) :
    toNumber ⟨decide (n < 0), Nat.toDigits 10 n.natAbs, none, none⟩ =
      .ok (.integer n lower upper) := by
  unfold toNumber
  simp only [Nat.ofDigitChars_ten_toDigits, Option.isSome_none, Bool.false_eq_true, or_self,
    if_false, decide_eq_true_eq]
  by_cases hn : n < 0
  · have hbounds : 0 < n.natAbs ∧ n.natAbs ≤ 0x8000000000000000 := by omega
    have hvalue : -(n.natAbs : Int) = n := by omega
    rw [if_pos hn, dif_pos hbounds]
    simp only [hvalue]
  · have hbound : n.natAbs < 0x10000000000000000 := by omega
    have hvalue : (n.natAbs : Int) = n := by omega
    rw [if_neg hn, dif_pos hbound]
    simp only [hvalue]

end Numeral

namespace Number

open Numeral

/-- The digits as which a magnitude is written. -/
def decimal (units : Nat) : Decimal :=
  if units = 0 then ⟨0, 0⟩ else Binary64.shortest .even units

/-- The numeral as which a number is written. -/
def numeral : Number → Numeral
  | .integer n _ _ => ⟨decide (n < 0), Nat.toDigits 10 n.natAbs, none, none⟩
  | .float x => ofDecimal x.negative (decimal x.units)

/-- The number that is read where the number has been written. -/
def reread (n : Number) : Number :=
  match n.numeral.toNumber with
  | .ok read => read
  | .error _ => n

theorem writable_decimal {units : Nat} (h : units < Binary64.limit) :
    (decimal units).Writable := by
  unfold decimal
  split
  · exact Binary64.writable_zero
  · next hzero => exact Binary64.writable_shortest hzero h

theorem spell_decimal (negative : Bool) (units : Nat) :
    (ofDecimal negative (decimal units)).spell =
      (if negative then ['-'] else []) ++ writeMagnitude units := by
  unfold decimal writeMagnitude
  by_cases hzero : units = 0
  · rw [if_pos hzero, if_pos hzero]
    exact spell_positional negative ⟨0, 0⟩
  · rw [if_neg hzero, if_neg hzero]
    unfold ofDecimal
    dsimp only
    split
    · exact spell_positional negative _
    · exact spell_scientific negative _

theorem spell_numeral (n : Number) : n.numeral.spell = n.write := by
  cases n with
  | integer n lower upper =>
      simp [numeral, spell, spellFraction, spellExponent, write, Text.writeInt]
  | float x => exact spell_decimal x.negative x.units

theorem valid_numeral (n : Number) : n.numeral.Valid := by
  cases n with
  | integer n lower upper =>
      refine ⟨isRun_toDigits _, fun hzero => ?_, by simp [numeral], by simp [numeral]⟩
      have hn : n.natAbs = 0 := by
        by_contra hne
        exact head?_toDigits_ne hne hzero
      simp only [numeral, hn, Nat.toDigits_zero]
  | float x => exact valid_ofDecimal x.negative (writable_decimal x.bounded)

theorem toNumber_numeral_integer {n : Int} (lower : -0x8000000000000000 ≤ n)
    (upper : n < 0x10000000000000000) :
    (integer n lower upper).numeral.toNumber = .ok (.integer n lower upper) :=
  toNumber_digits lower upper

theorem exists_toNumber_numeral_float (x : Binary64.Finite) :
    ∃ y, (float x).numeral.toNumber = .ok (.float y) := by
  obtain ⟨y, hy⟩ := exists_toDouble_ofDecimal x.negative (writable_decimal x.bounded)
  refine ⟨y, ?_⟩
  rw [← hy, numeral, toNumber, if_pos (isSome_ofDecimal _ _)]

theorem toNumber_numeral (n : Number) : n.numeral.toNumber = .ok n.reread := by
  unfold reread
  cases n with
  | integer n lower upper => rw [toNumber_numeral_integer]
  | float x =>
      obtain ⟨y, hy⟩ := exists_toNumber_numeral_float x
      rw [hy]

@[simp] theorem reread_integer {n : Int} (lower : -0x8000000000000000 ≤ n)
    (upper : n < 0x10000000000000000) :
    (integer n lower upper).reread = .integer n lower upper := by
  rw [reread, toNumber_numeral_integer]

theorem exists_write_eq_cons (n : Number) :
    ∃ c more, n.write = c :: more ∧ (c = '-' ∨ c.isDigit = true) := by
  obtain ⟨c, digits, hdigits⟩ := List.exists_cons_of_ne_nil n.valid_numeral.whole.nonempty
  have hc : c.isDigit = true := n.valid_numeral.whole.digits c (hdigits ▸ List.mem_cons_self)
  rw [← n.spell_numeral, spell, hdigits]
  split
  · exact ⟨'-', _, rfl, .inl rfl⟩
  · exact ⟨c, _, rfl, .inr hc⟩

end Number

/-- A written number is read up to the mark behind it. -/
theorem readNumber_write (n : Number) (h : Closing rest) :
    readNumber (n.write ++ rest) = .ok (n.reread, rest) := by
  have hscan := Numeral.scan_spell n.valid_numeral h
  rw [n.spell_numeral] at hscan
  rw [readNumber, hscan]
  simp only [bind, Except.bind, n.toNumber_numeral]

end DataCatalog.Json
