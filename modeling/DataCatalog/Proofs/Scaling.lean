import DataCatalog.Binary64.Decimal
import DataCatalog.Json.Numeral
import DataCatalog.Proofs.Rounding

/-!
# The range of the reader of numerals

A numeral is rounded up to three times: its digits, the power of ten and their product.  Each
rounding adds at most one part in `2 ^ 53`, so only the greatest decimals can leave the range of
doubles on the way.  A decimal of at most 17 digits is read as a finite double whenever its nearest
double is finite, with one exception just below the range of doubles.
-/

namespace DataCatalog

namespace Binary64

/-- The double near a whole number, in units. -/
def wholeUnits (n : Nat) : Nat :=
  roundUnits (n * one) 1

/-- The product of the doubles near a whole number and near a power of ten, in units. -/
def scaledUnits (significand exponent : Nat) : Nat :=
  roundUnits (wholeUnits significand * wholeUnits (10 ^ exponent)) one

theorem wholeUnits_mono {m n : Nat} (h : m ≤ n) : wholeUnits m ≤ wholeUnits n := by
  apply roundUnits_mono Nat.one_pos Nat.one_pos
  rw [Nat.mul_one, Nat.mul_one]
  exact Nat.mul_le_mul_right one h

theorem scaledUnits_mono {m n : Nat} (h : m ≤ n) (exponent : Nat) :
    scaledUnits m exponent ≤ scaledUnits n exponent := by
  apply roundUnits_mono one_pos one_pos
  apply Nat.mul_le_mul_right one
  exact Nat.mul_le_mul_right _ (wholeUnits_mono h)

/-! ## The range of products -/

/-- The figures of the format.  The greatest double is `17976931348623157 * 10 ^ 292` in short, and
seven less in the last place leaves room for three roundings. -/
theorem figures :
    Exact one ∧ 2 ^ 52 ≤ one ∧
      (2 ^ 53 + 1) ^ 3 * (17976931348623150 * 10 ^ 292 * one) < 2 ^ 159 * limit ∧
      scaledUnits 17976931348623157 292 < limit ∧
      limit ≤ wholeUnits (17976931348623159 * 10 ^ 292) := by
  decide +kernel

-- Reduction must not run into the powers of two behind these two names.
attribute [local irreducible] one limit

theorem wholeUnits_one : wholeUnits 1 = one := by
  rw [wholeUnits, Nat.one_mul, roundUnits_of_exact figures.1]

theorem one_le_wholeUnits {n : Nat} (h : 0 < n) : one ≤ wholeUnits n :=
  wholeUnits_one ▸ wholeUnits_mono h

theorem wholeUnits_mul_le {n : Nat} (h : 0 < n) :
    2 ^ 53 * wholeUnits n ≤ (2 ^ 53 + 1) * (n * one) := by
  have hbits : 2 ^ 52 ≤ n * one / 1 := by
    rw [Nat.div_one]
    exact figures.2.1.trans (Nat.le_mul_of_pos_left one h)
  have hround := roundUnits_mul_le hbits
  rwa [Nat.mul_one] at hround

/-- A product is rounded up three times, by at most one part in `2 ^ 53` each time. -/
theorem scaledUnits_mul_le {significand : Nat} (h : 0 < significand) (exponent : Nat) :
    2 ^ 159 * scaledUnits significand exponent ≤
      (2 ^ 53 + 1) ^ 3 * (significand * 10 ^ exponent * one) := by
  have hpower : 0 < 10 ^ exponent := Nat.pow_pos (by decide)
  have hbits : 2 ^ 52 ≤ wholeUnits significand * wholeUnits (10 ^ exponent) / one := by
    rw [Nat.le_div_iff_mul_le one_pos]
    exact Nat.mul_le_mul (figures.2.1.trans (one_le_wholeUnits h)) (one_le_wholeUnits hpower)
  have hround := roundUnits_mul_le hbits
  have hproduct := Nat.mul_le_mul (wholeUnits_mul_le h) (wholeUnits_mul_le hpower)
  apply Nat.le_of_mul_le_mul_right _ one_pos
  calc
    2 ^ 159 * scaledUnits significand exponent * one =
        2 ^ 106 * (2 ^ 53 * (scaledUnits significand exponent * one)) := by ring
    _ ≤ 2 ^ 106 * ((2 ^ 53 + 1) * (wholeUnits significand * wholeUnits (10 ^ exponent))) :=
        Nat.mul_le_mul_left _ hround
    _ = (2 ^ 53 + 1) *
          (2 ^ 53 * wholeUnits significand * (2 ^ 53 * wholeUnits (10 ^ exponent))) := by ring
    _ ≤ (2 ^ 53 + 1) *
          ((2 ^ 53 + 1) * (significand * one) * ((2 ^ 53 + 1) * (10 ^ exponent * one))) :=
        Nat.mul_le_mul_left _ hproduct
    _ = (2 ^ 53 + 1) ^ 3 * (significand * 10 ^ exponent * one) * one := by ring

theorem scaledUnits_lt {significand exponent : Nat} (hpos : 0 < significand)
    (h : significand * 10 ^ exponent ≤ 17976931348623150 * 10 ^ 292) :
    scaledUnits significand exponent < limit := by
  apply Nat.lt_of_mul_lt_mul_left (a := 2 ^ 159)
  calc
    2 ^ 159 * scaledUnits significand exponent ≤
        (2 ^ 53 + 1) ^ 3 * (significand * 10 ^ exponent * one) := scaledUnits_mul_le hpos exponent
    _ ≤ (2 ^ 53 + 1) ^ 3 * (17976931348623150 * 10 ^ 292 * one) :=
        Nat.mul_le_mul_left _ (Nat.mul_le_mul_right one h)
    _ < 2 ^ 159 * limit := figures.2.2.1

/-- This significand is rounded down, which makes up for the power of ten. -/
theorem scaledUnits_greatest_lt : scaledUnits 17976931348623157 292 < limit :=
  figures.2.2.2.1

theorem limit_le_wholeUnits : limit ≤ wholeUnits (17976931348623159 * 10 ^ 292) :=
  figures.2.2.2.2

theorem scaledUnits_zero (n : Nat) : scaledUnits n 0 = wholeUnits n := by
  have hexact : roundUnits (wholeUnits n) 1 = wholeUnits n :=
    roundUnits_of_exact (exact_roundUnits _ _)
  rw [scaledUnits, Nat.pow_zero, wholeUnits_one, ← hexact]
  exact roundUnits_congr one_pos Nat.one_pos (by rw [hexact, Nat.mul_one])

theorem wholeUnits_lt {n : Nat} (hpos : 0 < n) (h : n ≤ 17976931348623150 * 10 ^ 292) :
    wholeUnits n < limit := by
  rw [← scaledUnits_zero]
  exact scaledUnits_lt hpos (by rwa [Nat.pow_zero, Nat.mul_one])

theorem wholeUnits_power_lt {n : Nat} (h : n ≤ 308) : wholeUnits (10 ^ n) < limit := by
  have hpos : 0 < 10 ^ n := Nat.pow_pos (by decide)
  have hle : 10 ^ n ≤ 10 ^ (n - 292) * 10 ^ 292 := by
    rw [← Nat.pow_add]
    exact Nat.pow_le_pow_right (by decide) (by omega)
  have hpower : 10 ^ (n - 292) ≤ 10 ^ 16 := Nat.pow_le_pow_right (by decide) (by omega)
  exact wholeUnits_lt hpos (hle.trans (Nat.mul_le_mul_right _ (hpower.trans (by decide))))

theorem wholeUnits_word_lt : wholeUnits (2 ^ 64) < limit := by
  have hword : 2 ^ 64 ≤ 10 ^ 20 := by decide
  exact (wholeUnits_mono hword).trans_lt (wholeUnits_power_lt (by decide))

/-! ## Powers of ten -/

section

variable {a b n k : Nat}

theorem le_of_mul_pow_le (h : a * 10 ^ (n + k) ≤ b * 10 ^ k) : a * 10 ^ n ≤ b := by
  rw [Nat.pow_add, ← Nat.mul_assoc] at h
  exact Nat.le_of_mul_le_mul_right h (Nat.pow_pos (by decide))

theorem lt_of_mul_pow_lt (h : a * 10 ^ (n + k) < b * 10 ^ k) : a * 10 ^ n < b := by
  rw [Nat.pow_add, ← Nat.mul_assoc] at h
  exact Nat.lt_of_mul_lt_mul_right h

theorem lt_of_lt_mul_pow (h : a * 10 ^ k < b * 10 ^ (n + k)) : a < b * 10 ^ n := by
  rw [Nat.pow_add, ← Nat.mul_assoc] at h
  exact Nat.lt_of_mul_lt_mul_right h

end

theorem exponent_le_of_mul_le {significand exponent : Nat} (hpos : 0 < significand)
    (h : significand * 10 ^ exponent ≤ 17976931348623150 * 10 ^ 292) : exponent ≤ 308 := by
  by_contra hlarge
  obtain ⟨n, rfl⟩ := Nat.exists_eq_add_of_lt (Nat.lt_of_not_le hlarge)
  have hexponent : 308 + n + 1 = n + 17 + 292 := by omega
  rw [hexponent] at h
  have hbound : significand * 10 ^ (n + 17) ≤ 17976931348623150 := le_of_mul_pow_le h
  have hpower : 0 < significand * 10 ^ n := Nat.mul_pos hpos (Nat.pow_pos (by decide))
  rw [Nat.pow_add, ← Nat.mul_assoc] at hbound
  omega

/-- No multiple of ten lies between the two bounds, and 17 digits do not reach the lower one with a
smaller power. -/
theorem exponent_eq_of_between {coefficient exponent : Nat} (hdigits : coefficient ≤ 10 ^ 17)
    (hlow : 17976931348623150 * 10 ^ 292 < coefficient * 10 ^ exponent)
    (hhigh : coefficient * 10 ^ exponent < 17976931348623159 * 10 ^ 292) : exponent = 292 := by
  rcases Nat.lt_trichotomy exponent 292 with hless | rfl | hmore
  · obtain ⟨n, hn⟩ := Nat.exists_eq_add_of_lt hless
    have hexponent : 292 = n + 1 + exponent := by omega
    rw [hexponent] at hlow
    have habove : 17976931348623150 * 10 ^ (n + 1) < coefficient := lt_of_mul_pow_lt hlow
    have hpower : 0 < 10 ^ n := Nat.pow_pos (by decide)
    rw [Nat.pow_succ] at habove
    omega
  · rfl
  · obtain ⟨n, rfl⟩ := Nat.exists_eq_add_of_lt hmore
    have hexponent : 292 + n + 1 = n + 1 + 292 := by omega
    rw [hexponent] at hlow hhigh
    have habove : 17976931348623150 < coefficient * 10 ^ (n + 1) := lt_of_lt_mul_pow hlow
    have hbelow : coefficient * 10 ^ (n + 1) < 17976931348623159 := lt_of_mul_pow_lt hhigh
    rw [Nat.pow_succ, ← Nat.mul_assoc] at habove hbelow
    omega

/-! ## Products and quotients -/

theorem exists_ofInt_eq_finite {n : Nat} (h : wholeUnits n < limit) :
    ∃ x : Finite, ofInt n = .finite x ∧ x.units = wholeUnits n := by
  refine ⟨⟨decide ((n : Int) < 0), wholeUnits n, exact_roundUnits _ _, h⟩, ?_, rfl⟩
  rw [ofInt, ofRatio, Int.natAbs_natCast]
  exact dif_pos h

/-- A quotient by at least one is no larger than the dividend, so it is finite. -/
theorem exists_div_eq_finite (x y : Finite) (h : one ≤ y.units) :
    ∃ z, div (.finite x) (.finite y) = .finite z := by
  have hpos : 0 < y.units := one_pos.trans_le h
  have hzero : y.isZero = false := by
    simp only [Finite.isZero, beq_eq_false_iff_ne]
    omega
  have hle : roundUnits (x.units * one) y.units ≤ x.units := by
    calc
      roundUnits (x.units * one) y.units ≤ roundUnits x.units 1 := by
          apply roundUnits_mono hpos Nat.one_pos
          rw [Nat.mul_one]
          exact Nat.mul_le_mul_left x.units h
      _ = x.units := roundUnits_of_exact x.exact
  have hbounded : roundUnits (x.units * one) y.units < limit := hle.trans_lt x.bounded
  refine ⟨⟨x.negative != y.negative, _, exact_roundUnits _ _, hbounded⟩, ?_⟩
  simp only [div, hzero, Bool.false_eq_true, if_false, ofUnits, dif_pos hbounded]

end Binary64

namespace Json.Numeral

open Binary64

theorem exists_tenPower_eq_finite {n : Nat} (h : n ≤ 308) :
    ∃ y : Finite, tenPower n = .finite y ∧ y.units = wholeUnits (10 ^ n) :=
  exists_ofInt_eq_finite (wholeUnits_power_lt h)

theorem exists_div_tenPower (x : Finite) {n : Nat} (h : n ≤ 308) :
    ∃ z, div (.finite x) (tenPower n) = .finite z := by
  obtain ⟨y, hy, hunits⟩ := exists_tenPower_eq_finite h
  rw [hy]
  apply exists_div_eq_finite
  rw [hunits]
  exact one_le_wholeUnits (Nat.pow_pos (by decide))

/-- A significand over a power of ten is finite. -/
theorem isFinite_scale_of_neg {significand : Nat} {exponent : Int} (hword : significand ≤ 2 ^ 64)
    (hneg : exponent < 0) : (scale significand exponent).isFinite = true := by
  have hlt : wholeUnits significand < limit := (wholeUnits_mono hword).trans_lt wholeUnits_word_lt
  obtain ⟨x, hx, -⟩ := exists_ofInt_eq_finite hlt
  unfold scale
  dsimp only
  rw [hx, if_neg (by omega : ¬308 < exponent), if_neg (by omega : ¬0 ≤ exponent)]
  split
  · rfl
  · split
    · next hn =>
        obtain ⟨z, hz⟩ := exists_div_tenPower x hn
        rw [hz]
        rfl
    · split
      · next hn =>
          obtain ⟨z, hz⟩ := exists_div_tenPower x (Nat.le_refl 308)
          obtain ⟨w, hw⟩ := exists_div_tenPower z (by omega : (-exponent).toNat - 308 ≤ 308)
          rw [hz, hw]
          rfl
      · rfl

theorem isFinite_scale_of_scaledUnits_lt {significand exponent : Nat}
    (hword : significand ≤ 2 ^ 64) (hexponent : exponent ≤ 308)
    (h : scaledUnits significand exponent < limit) :
    (scale significand exponent).isFinite = true := by
  have hlt : wholeUnits significand < limit := (wholeUnits_mono hword).trans_lt wholeUnits_word_lt
  obtain ⟨x, hx, hsignificand⟩ := exists_ofInt_eq_finite hlt
  obtain ⟨y, hy, hpower⟩ := exists_tenPower_eq_finite hexponent
  unfold scale
  dsimp only
  rw [hx, if_neg (by omega : ¬308 < (exponent : Int)),
    if_pos (by omega : (0 : Int) ≤ exponent), Int.toNat_natCast, hy]
  split
  · rfl
  · apply isFinite_ofUnits_iff.mpr
    rw [hsignificand, hpower]
    exact h

theorem isFinite_scale_of_le {significand exponent : Nat} (hword : significand ≤ 2 ^ 64)
    (h : significand * 10 ^ exponent ≤ 17976931348623150 * 10 ^ 292) :
    (scale significand exponent).isFinite = true := by
  rcases Nat.eq_zero_or_pos significand with rfl | hpos
  · rw [scale, if_pos rfl]
    exact isFinite_ofInt (by decide)
  · have hexponent : exponent ≤ 308 := exponent_le_of_mul_le hpos h
    exact isFinite_scale_of_scaledUnits_lt hword hexponent (scaledUnits_lt hpos h)

/-- A significand of 64 bits is finite with any power of ten up to this one. -/
theorem isFinite_scale_of_word {significand : Nat} {exponent : Int} (hword : significand ≤ 2 ^ 64)
    (hexponent : exponent ≤ 288) : (scale significand exponent).isFinite = true := by
  by_cases hneg : exponent < 0
  · exact isFinite_scale_of_neg hword hneg
  · obtain ⟨e, rfl⟩ := Int.eq_ofNat_of_zero_le (by omega : 0 ≤ exponent)
    apply isFinite_scale_of_le hword
    obtain ⟨n, hn⟩ := Nat.exists_eq_add_of_le (by omega : e ≤ 288)
    have hpower : 292 = 4 + n + e := by omega
    rw [hpower, Nat.pow_add 10 (4 + n) e, ← Nat.mul_assoc]
    apply Nat.mul_le_mul_right
    have hpos : 0 < 10 ^ n := Nat.pow_pos (by decide)
    rw [Nat.pow_add]
    omega

/-! ## Decimals with a finite nearest double -/

theorem wholeUnits_of_roundedUnits (coefficient exponent : Nat) :
    (Decimal.mk coefficient exponent).roundedUnits = wholeUnits (coefficient * 10 ^ exponent) := by
  simp [Decimal.roundedUnits, Decimal.units, wholeUnits]

/-- A decimal of at most 17 digits with a finite nearest double is read as a finite double.  The
exception rounds to the greatest double, but the power of ten in it is rounded up first. -/
theorem isFinite_scale {d : Decimal} (hdigits : d.coefficient ≤ 10 ^ 17)
    (hfinite : d.roundedUnits < limit) (hexception : d ≠ ⟨17976931348623158, 292⟩) :
    (scale d.coefficient d.exponent).isFinite = true := by
  obtain ⟨coefficient, exponent⟩ := d
  dsimp only at hdigits ⊢
  have hword : coefficient ≤ 2 ^ 64 := hdigits.trans (by decide)
  by_cases hneg : exponent < 0
  · exact isFinite_scale_of_neg hword hneg
  obtain ⟨e, rfl⟩ := Int.eq_ofNat_of_zero_le (by omega : 0 ≤ exponent)
  rw [wholeUnits_of_roundedUnits] at hfinite
  have hbelow : coefficient * 10 ^ e < 17976931348623159 * 10 ^ 292 := by
    by_contra hlarge
    have hunits := limit_le_wholeUnits.trans (wholeUnits_mono (Nat.le_of_not_lt hlarge))
    exact absurd hfinite (Nat.not_lt_of_le hunits)
  by_cases hle : coefficient * 10 ^ e ≤ 17976931348623150 * 10 ^ 292
  · exact isFinite_scale_of_le hword hle
  -- No multiple of ten lies strictly between the two bounds, so the power of ten is this one.
  obtain rfl : e = 292 := exponent_eq_of_between hdigits (Nat.lt_of_not_le hle) hbelow
  have hcoefficient : coefficient < 17976931348623159 := Nat.lt_of_mul_lt_mul_right hbelow
  have hne : coefficient ≠ 17976931348623158 := by
    rintro rfl
    exact hexception rfl
  apply isFinite_scale_of_scaledUnits_lt hword (by decide)
  exact (scaledUnits_mono (by omega) 292).trans_lt scaledUnits_greatest_lt

end Json.Numeral

end DataCatalog
