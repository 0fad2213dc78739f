import DataCatalog.Proofs.Numerals
import DataCatalog.Proofs.SeventeenDigits

/-!
# The double that is read back

The digits of a double are read with the power of ten that they are written with; a whole number
without an exponent has one zero more, the one behind its point.  The nearest double to these digits
is the double that was written, but the reader rounds up to three times and may miss it.  Where the
digits and the power of ten are doubles themselves, only their product is rounded, and the double
comes back.
-/

namespace DataCatalog

open Binary64

/-! ## Decimals that are rounded once -/

namespace Decimal

/-- Both the digits and the power of ten are doubles. -/
def RoundsOnce (d : Decimal) : Prop :=
  Exact (d.coefficient * one) ∧ d.exponent.natAbs ≤ 22

instance (d : Decimal) : Decidable d.RoundsOnce :=
  inferInstanceAs (Decidable (_ ∧ _))

/-- The decimal that is read from the digits of this one. -/
def gathered (d : Decimal) : Decimal :=
  if 0 ≤ d.exponent ∧ d.leading < 16 then ⟨d.coefficient * 10 ^ (d.exponent.toNat + 1), -1⟩ else d

theorem roundedUnits_shift_pow (coefficient n : Nat) (exponent : Int) :
    (Decimal.mk (coefficient * 10 ^ n) exponent).roundedUnits =
      (Decimal.mk coefficient (exponent + n)).roundedUnits := by
  induction n generalizing exponent with
  | zero => simp
  | succ n ih =>
      have hnext : exponent + 1 + n = exponent + (n + 1 : Nat) := by omega
      rw [Nat.pow_succ, ← Nat.mul_assoc, roundedUnits_shift, ih, hnext]

theorem roundedUnits_gathered (d : Decimal) : d.gathered.roundedUnits = d.roundedUnits := by
  unfold gathered
  split
  · next hwhole =>
      have hexponent : (-1 : Int) + (d.exponent.toNat + 1 : Nat) = d.exponent := by omega
      rw [roundedUnits_shift_pow, hexponent]
  · rfl

theorem lt_word_of_leading {d : Decimal} (hwhole : 0 ≤ d.exponent) (hleading : d.leading < 16) :
    d.coefficient * 10 ^ (d.exponent.toNat + 1) < 2 ^ 64 := by
  have hsize : digitCount d.coefficient + (d.exponent.toNat + 1) ≤ 17 := by
    unfold leading at hleading
    omega
  calc
    d.coefficient * 10 ^ (d.exponent.toNat + 1)
        < 10 ^ digitCount d.coefficient * 10 ^ (d.exponent.toNat + 1) :=
          Nat.mul_lt_mul_of_pos_right (lt_pow_digitCount _) (Nat.pow_pos (by decide))
    _ = 10 ^ (digitCount d.coefficient + (d.exponent.toNat + 1)) := (Nat.pow_add _ _ _).symm
    _ ≤ 10 ^ 17 := Nat.pow_le_pow_right (by decide) hsize
    _ ≤ 2 ^ 64 := by decide

theorem coefficient_gathered_le {d : Decimal} (h : d.coefficient ≤ 10 ^ 17) :
    d.gathered.coefficient ≤ 2 ^ 64 := by
  unfold gathered
  split
  · next hwhole => exact (lt_word_of_leading hwhole.1 hwhole.2).le
  · exact h.trans (by decide)

end Decimal

namespace Binary64

theorem exact_ten_pow {n : Nat} (h : n ≤ 22) : Exact (10 ^ n * one) := by
  -- The twos go into the exponent, so only the fives need bits.
  have hfives : 5 ^ n ≤ 2 ^ 53 :=
    (Nat.pow_le_pow_right (by decide) h).trans (by decide : 5 ^ 22 ≤ 2 ^ 53)
  obtain ⟨bits, hone⟩ : ∃ bits, one = 2 ^ bits := ⟨1074, by decide +kernel⟩
  have hten : 10 ^ n * one = 5 ^ n * 2 ^ (n + bits) := by
    rw [hone, Nat.pow_add, ← Nat.mul_assoc, ← Nat.mul_pow]
  rw [hten]
  exact exact_of_le hfives

-- Reduction must not run into the powers of two behind these two names.
attribute [local irreducible] one limit

theorem units_of_ofUnits {negative : Bool} {num den : Nat} {y : Finite}
    (h : ofUnits negative num den = .finite y) : y.units = roundUnits num den := by
  unfold ofUnits at h
  split at h
  · cases h
    rfl
  · cases h

theorem units_of_mul {x y z : Finite} (h : mul (.finite x) (.finite y) = .finite z) :
    z.units = roundUnits (x.units * y.units) one :=
  units_of_ofUnits h

theorem units_of_div {x y z : Finite} (hy : 0 < y.units)
    (h : div (.finite x) (.finite y) = .finite z) :
    z.units = roundUnits (x.units * one) y.units := by
  have hnonzero : y.isZero = false := by
    simp only [Finite.isZero, beq_eq_false_iff_ne]
    omega
  simp only [div, hnonzero, Bool.false_eq_true, if_false] at h
  exact units_of_ofUnits h

end Binary64

namespace Json.Numeral

attribute [local irreducible] one limit

theorem exists_tenPower_of_le {n : Nat} (h : n ≤ 22) :
    ∃ p : Finite, tenPower n = .finite p ∧ p.units = 10 ^ n * one := by
  obtain ⟨p, hp, hunits⟩ := exists_tenPower_eq_finite (by omega : n ≤ 308)
  rw [wholeUnits, roundUnits_of_exact (exact_ten_pow h)] at hunits
  exact ⟨p, hp, hunits⟩

theorem exists_scale_eq_finite {significand : Nat} {exponent : Int} (hword : significand ≤ 2 ^ 64)
    (hexponent : exponent ≤ 288) : ∃ y, scale significand exponent = .finite y := by
  have hfinite := isFinite_scale_of_word hword hexponent
  cases hscale : scale significand exponent with
  | finite y => exact ⟨y, rfl⟩
  | nan => simp [hscale, isFinite] at hfinite
  | infinite negative => simp [hscale, isFinite] at hfinite

/-- Where the digits and the power of ten are doubles, the nearest double is read. -/
theorem exists_scale_of_roundsOnce {d : Decimal} (h : d.RoundsOnce)
    (hword : d.coefficient ≤ 2 ^ 64) :
    ∃ y, scale d.coefficient d.exponent = .finite y ∧ y.units = d.roundedUnits := by
  obtain ⟨hdigits, hpower⟩ := h
  obtain ⟨y, hy⟩ := exists_scale_eq_finite hword (by omega : d.exponent ≤ 288)
  refine ⟨y, hy, ?_⟩
  obtain ⟨x, hx, hxunits⟩ :=
    exists_ofInt_eq_finite ((wholeUnits_mono hword).trans_lt wholeUnits_word_lt)
  obtain ⟨p, hp, hpunits⟩ := exists_tenPower_of_le hpower
  rw [wholeUnits, roundUnits_of_exact hdigits] at hxunits
  unfold scale at hy
  dsimp only at hy
  rw [hx, if_neg (by omega : ¬308 < d.exponent)] at hy
  by_cases hzero : d.coefficient = 0
  · rw [if_pos hzero] at hy
    cases hy
    rw [hxunits, hzero, Nat.zero_mul, Decimal.roundedUnits_of_coefficient hzero]
  rw [if_neg hzero] at hy
  -- The operands are exact, and one rounding is left, of the product or of the quotient.
  unfold Decimal.roundedUnits Decimal.units
  by_cases hwhole : 0 ≤ d.exponent
  · have hsize : d.exponent.toNat = d.exponent.natAbs := by omega
    rw [if_pos hwhole, hsize, hp] at hy
    rw [if_pos hwhole, units_of_mul hy, hxunits, hpunits, hsize]
    apply roundUnits_congr Binary64.one_pos Nat.one_pos
    rw [Nat.pow_eq]
    ring
  · have hsize : (-d.exponent).toNat = d.exponent.natAbs := by omega
    have hpositive : 0 < 10 ^ d.exponent.natAbs * one :=
      Nat.mul_pos (Nat.pow_pos (by decide)) Binary64.one_pos
    rw [if_neg hwhole, hsize, if_pos (by omega), hp] at hy
    rw [if_neg hwhole, units_of_div (hpunits ▸ hpositive) hy, hxunits, hpunits, hsize]
    apply roundUnits_congr hpositive (Nat.pow_pos (by decide))
    rw [Nat.pow_eq]
    ring

end Json.Numeral

/-! ## Numerals are read digit by digit -/

namespace Binary64

theorem le_exponent_dropZeros (count : Nat) (d : Decimal) :
    d.exponent ≤ (dropZeros count d).exponent := by
  induction count generalizing d with
  | zero => exact le_refl _
  | succ count ih =>
      unfold dropZeros
      split
      · have hnext : d.exponent ≤ d.exponent + 1 := by omega
        exact hnext.trans (ih _)
      · exact le_refl _

theorem le_leadingPower (units : Nat) : -400 ≤ leadingPower units := by
  have hsize : 0 < digitCount (units * Nat.pow 10 400 / one) := Nat.length_toDigits_pos
  unfold leadingPower
  generalize digitCount (units * Nat.pow 10 400 / one) = size at hsize ⊢
  omega

theorem le_exponent_shortest (tie : Tie) (units : Nat) : -416 ≤ (shortest tie units).exponent := by
  have hpower := le_leadingPower units
  cases hfound : (List.range' 1 17).findSome? (ofDigitCount? tie units) with
  | none =>
      rw [shortest, hfound]
      decide
  | some d =>
      obtain ⟨count, hcount, hd⟩ := exists_count_of_findSome? hfound
      have hexponent := exponent_of_mem_neighbours (List.mem_of_find?_eq_some hd)
      have hdrop := le_exponent_dropZeros 17 d
      rw [shortest_eq_dropZeros hfound]
      omega

end Binary64

namespace Json.Numeral

theorem toDouble_of_none {n : Numeral} (hexponent : n.exponent = none)
    (hword : Nat.ofDigitChars 10 (n.whole ++ n.fraction.getD []) 0 < 2 ^ 64) :
    n.toDouble = signed n.negative (scale (Nat.ofDigitChars 10 (n.whole ++ n.fraction.getD []) 0)
      (-(n.fraction.getD []).length)) := by
  rw [Nat.ofDigitChars_append] at hword ⊢
  have hwhole := gather_of_lt ((le_ofDigitChars _ _).trans_lt hword) 0
  have hall := gather_of_lt hword 0
  unfold toDouble
  simp only [hwhole, hall, hexponent, Nat.zero_add, Int.natCast_zero, zero_sub]

theorem toDouble_positional_of_nonneg (negative : Bool) {d : Decimal} (hwhole : 0 ≤ d.exponent)
    (hleading : d.leading < 16) :
    (positional negative d).toDouble =
      signed negative (scale (d.coefficient * 10 ^ (d.exponent.toNat + 1)) (-1)) := by
  have hvalue : Nat.ofDigitChars 10 (d.digits ++ List.replicate d.exponent.toNat '0' ++ ['0']) 0 =
      d.coefficient * 10 ^ (d.exponent.toNat + 1) := by
    have hdigits : Nat.ofDigitChars 10 d.digits 0 = d.coefficient := Nat.ofDigitChars_ten_toDigits
    rw [List.append_assoc, ← List.replicate_succ', Nat.ofDigitChars_append, hdigits,
      Nat.ofDigitChars_replicate_zero, Nat.mul_comm]
  have hword := Decimal.lt_word_of_leading hwhole hleading
  unfold positional
  rw [if_pos hwhole, toDouble_of_none rfl (hvalue.trans_lt hword)]
  exact congrArg (fun value => signed negative (scale value (-1))) hvalue

theorem toDouble_positional_of_neg (negative : Bool) {d : Decimal} (hfraction : d.exponent < 0)
    (hdigits : d.coefficient ≤ 10 ^ 17) :
    (positional negative d).toDouble = signed negative (scale d.coefficient d.exponent) := by
  -- Zeros in front make room for the point and count for nothing.
  have hvalue (zeros : Nat) :
      Nat.ofDigitChars 10 (List.replicate zeros '0' ++ d.digits) 0 = d.coefficient := by
    rw [Nat.ofDigitChars_append, Nat.ofDigitChars_replicate_zero, Nat.mul_zero]
    exact Nat.ofDigitChars_ten_toDigits
  have hword : d.coefficient < 2 ^ 64 := hdigits.trans_lt (by decide)
  unfold positional
  rw [if_neg (by omega : ¬0 ≤ d.exponent)]
  dsimp only
  generalize hzeros : (-d.exponent).toNat + 1 - d.digits.length = zeros
  rw [toDouble_of_none rfl]
  · dsimp only [Option.getD_some]
    have hplaces : (-((List.replicate zeros '0' ++ d.digits).drop
        ((List.replicate zeros '0' ++ d.digits).length - (-d.exponent).toNat)).length : Int) =
          d.exponent := by
      simp only [List.length_drop, List.length_append, List.length_replicate]
      omega
    rw [List.take_append_drop, hvalue, hplaces]
  · dsimp only [Option.getD_some]
    rw [List.take_append_drop, hvalue]
    exact hword

/-- What a written double is read as, before it gets its sign. -/
theorem toDouble_ofDecimal (negative : Bool) {d : Decimal} (h : d.Writable)
    (hlow : -416 ≤ d.exponent) :
    (ofDecimal negative d).toDouble =
      signed negative (scale d.gathered.coefficient d.gathered.exponent) := by
  unfold Decimal.gathered
  split
  · next hgathered =>
      obtain ⟨hwhole, hleading⟩ := hgathered
      have hpositional : -5 ≤ d.leading := by
        have hsize : 0 < digitCount d.coefficient := Nat.length_toDigits_pos
        unfold Decimal.leading
        omega
      rw [ofDecimal, if_pos ⟨hpositional, hleading⟩]
      exact toDouble_positional_of_nonneg negative hwhole hleading
  · unfold ofDecimal
    split
    · exact toDouble_positional_of_neg negative (by omega) h.digits
    · next hleading =>
        have hne : d.coefficient ≠ 0 := by
          intro hcoefficient
          rw [h.zero hcoefficient] at hleading
          exact hleading (by decide)
        exact toDouble_scientific negative h.digits hlow (le_of_isFinite_scale hne h.finite)

end Json.Numeral

/-! ## Doubles that survive -/

/-- The double that is read where this one has been written. -/
def Binary64.Finite.reread (x : Finite) : Finite :=
  let d := (Json.Number.decimal x.units).gathered
  match Json.Numeral.scale d.coefficient d.exponent with
  | .finite y => { y with negative := x.negative }
  | _ => x

namespace Json.Number

open Numeral

theorem le_exponent_decimal (units : Nat) : -416 ≤ (decimal units).exponent := by
  unfold decimal
  split
  · decide
  · exact le_exponent_shortest .even units

/-- The nearest double to the digits of a double is the double itself. -/
theorem roundedUnits_decimal {units : Nat} (h : Exact units) :
    (decimal units).roundedUnits = units := by
  unfold decimal
  split
  · next hzero =>
      rw [hzero]
      exact Decimal.roundedUnits_of_coefficient rfl
  · next hzero => exact roundedUnits_shortest .even h hzero

theorem reread_float (x : Finite) : (float x).reread = .float x.reread := by
  obtain ⟨y, hy⟩ := exists_toNumber_numeral_float x
  rw [Number.reread, hy, Finite.reread]
  rw [numeral, toNumber, if_pos (isSome_ofDecimal _ _),
    toDouble_ofDecimal x.negative (writable_decimal x.bounded) (le_exponent_decimal x.units)] at hy
  dsimp only
  generalize scale (decimal x.units).gathered.coefficient (decimal x.units).gathered.exponent = z
    at hy ⊢
  cases z with
  | finite z =>
      cases hy
      rfl
  | nan => cases hy
  | infinite negative => cases hy

end Json.Number

namespace Binary64.Finite

theorem eq_of_units {x y : Finite} (hsign : x.negative = y.negative) (hunits : x.units = y.units) :
    x = y := by
  cases x
  cases y
  simp_all

/-- Where the digits and the power of ten are doubles, the double survives. -/
theorem reread_of_roundsOnce {x : Finite}
    (h : (Json.Number.decimal x.units).gathered.RoundsOnce) : x.reread = x := by
  have hwritable := Json.Number.writable_decimal x.bounded
  obtain ⟨y, hy, hunits⟩ := Json.Numeral.exists_scale_of_roundsOnce h
    (Decimal.coefficient_gathered_le hwritable.digits)
  rw [Decimal.roundedUnits_gathered, Json.Number.roundedUnits_decimal x.exact] at hunits
  rw [reread]
  simp only [hy]
  exact eq_of_units rfl hunits

end Binary64.Finite

end DataCatalog
