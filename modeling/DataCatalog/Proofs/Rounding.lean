import DataCatalog.Binary64.Basic
import Mathlib

/-!
# How far rounding goes

Rounding a whole number of units moves it by less than one step, and a step is no larger than the
number itself.  A whole number of 64 bits is therefore rounded to a finite double.  From 53 bits on
a step is one part in `2 ^ 52`, and rounding moves a number by half a step at most.  Rounding never
leaves the powers of two around a number, within them it is a rounded division by one step, and so
it is monotone; a double is rounded to itself.
-/

namespace DataCatalog

theorem div_le_div_of_cross {num den num' den' : Nat} (hden : 0 < den) (hden' : 0 < den')
    (h : num * den' ≤ num' * den) : num / den ≤ num' / den' := by
  rw [Nat.le_div_iff_mul_le hden']
  apply Nat.le_of_mul_le_mul_right _ hden
  calc
    num / den * den' * den = num / den * den * den' := Nat.mul_right_comm _ _ _
    _ ≤ num * den' := Nat.mul_le_mul_right _ (Nat.div_mul_le_self _ _)
    _ ≤ num' * den := h

theorem roundDiv_mono {num den num' den' : Nat} (hden : 0 < den) (hden' : 0 < den')
    (h : num * den' ≤ num' * den) : roundDiv num den ≤ roundDiv num' den' := by
  rcases Nat.lt_or_eq_of_le (div_le_div_of_cross hden hden' h) with hlt | heq
  · calc
      roundDiv num den ≤ num / den + 1 := roundDiv_le_div_succ _ _
      _ ≤ num' / den' := hlt
      _ ≤ roundDiv num' den' := div_le_roundDiv _ _
  -- The whole parts are equal, so the fractions are in order.
  · have hfraction : num % den * den' ≤ num' % den' * den := by
      have hsplit : den * (num / den) + num % den = num := Nat.div_add_mod num den
      have hsplit' : den' * (num' / den') + num' % den' = num' := Nat.div_add_mod num' den'
      rw [← hsplit, ← hsplit', heq] at h
      nlinarith
    have hbelow : 2 * (num' % den') < den' → 2 * (num % den) < den := by
      intro hsmall
      by_contra hlarge
      nlinarith
    have habove : den < 2 * (num % den) → den' < 2 * (num' % den') := by
      intro hlarge
      by_contra hsmall
      nlinarith
    unfold roundDiv
    dsimp only
    rw [heq]
    split_ifs <;> omega

/-- A neighbour of a quotient that is not the farther one differs from it by at most one half. -/
theorem near_of_nearer {num den k : Nat} (hden : 0 < den)
    (h : k = num / den ∧ 2 * (num % den) ≤ den ∨ k = num / den + 1 ∧ den ≤ 2 * (num % den)) :
    2 * num ≤ 2 * (k * den) + den ∧ 2 * (k * den) ≤ 2 * num + den := by
  have hsplit : num / den * den + num % den = num := Nat.div_add_mod' num den
  have hmod : num % den < den := Nat.mod_lt _ hden
  have hnext : (num / den + 1) * den = num / den * den + den := Nat.succ_mul _ _
  rcases h with ⟨rfl, hfraction⟩ | ⟨rfl, hfraction⟩
  · omega
  · rw [hnext]
    omega

theorem roundDiv_near (num : Nat) {den : Nat} (hden : 0 < den) :
    2 * num ≤ 2 * (roundDiv num den * den) + den ∧
      2 * (roundDiv num den * den) ≤ 2 * num + den := by
  apply near_of_nearer hden
  unfold roundDiv
  dsimp only
  split_ifs <;> omega

namespace Binary64

theorem spacing_le {units : Nat} (h : units ≠ 0) : spacing units ≤ units :=
  calc
    spacing units ≤ 2 ^ units.log2 := Nat.pow_le_pow_right (by decide) (Nat.sub_le _ _)
    _ ≤ units := Nat.log2_self_le h

theorem spacing_pos (units : Nat) : 0 < spacing units :=
  Nat.two_pow_pos _

theorem roundUnits_one_le (units : Nat) : roundUnits units 1 ≤ 2 * units := by
  by_cases hzero : units = 0
  · subst hzero
    decide
  · have hstep : spacing units ≤ units := spacing_le hzero
    have hround : roundDiv units (spacing units) ≤ units / spacing units + 1 :=
      roundDiv_le_div_succ _ _
    have hdiv : units / spacing units * spacing units ≤ units := Nat.div_mul_le_self _ _
    calc
      roundUnits units 1 = roundDiv units (spacing units) * spacing units := by
          simp [roundUnits]
      _ ≤ (units / spacing units + 1) * spacing units := Nat.mul_le_mul_right _ hround
      _ = units / spacing units * spacing units + spacing units := by
          rw [Nat.add_mul, Nat.one_mul]
      _ ≤ 2 * units := by omega

/-- A number of at least 53 bits is rounded up by at most one part in `2 ^ 53`. -/
theorem roundUnits_mul_le {num den : Nat} (hbits : 2 ^ 52 ≤ num / den) :
    2 ^ 53 * (roundUnits num den * den) ≤ (2 ^ 53 + 1) * num := by
  have hne : num / den ≠ 0 := (Nat.lt_of_lt_of_le (by decide) hbits).ne'
  have hlog : 52 ≤ (num / den).log2 := (Nat.le_log2 hne).mpr hbits
  have hstep : 2 ^ 52 * (den * spacing (num / den)) ≤ num := by
    calc
      2 ^ 52 * (den * spacing (num / den)) = den * 2 ^ (num / den).log2 := by
          rw [Nat.mul_left_comm, spacing, Nat.pow_eq, ← Nat.pow_add, Nat.add_sub_cancel' hlog]
      _ ≤ den * (num / den) := Nat.mul_le_mul_left den (Nat.log2_self_le hne)
      _ ≤ num := Nat.mul_div_le num den
  have hden : 0 < den := by
    refine Nat.pos_of_ne_zero fun hzero => hne ?_
    rw [hzero, Nat.div_zero]
  obtain ⟨-, hround⟩ := roundDiv_near num (Nat.mul_pos hden (spacing_pos (num / den)))
  have hunits : roundUnits num den * den =
      roundDiv num (den * spacing (num / den)) * (den * spacing (num / den)) := by
    rw [roundUnits]
    ring
  rw [hunits]
  omega

/-! ## Rounding is monotone -/

theorem two_pow_le_roundUnits {num den : Nat} (h : num / den ≠ 0) :
    2 ^ (num / den).log2 ≤ roundUnits num den := by
  have hpow : 2 ^ (num / den).log2 =
      2 ^ ((num / den).log2 - ((num / den).log2 - 52)) * spacing (num / den) := by
    unfold spacing
    rw [Nat.pow_eq, ← Nat.pow_add, Nat.sub_add_cancel (Nat.sub_le _ _)]
  have hquotient :
      2 ^ ((num / den).log2 - ((num / den).log2 - 52)) ≤ num / den / spacing (num / den) := by
    rw [Nat.le_div_iff_mul_le (spacing_pos _), ← hpow]
    exact Nat.log2_self_le h
  rw [hpow]
  apply Nat.mul_le_mul_right
  rw [Nat.div_div_eq_div_mul] at hquotient
  exact hquotient.trans (div_le_roundDiv _ _)

theorem roundUnits_le_two_pow (num den : Nat) :
    roundUnits num den ≤ 2 ^ ((num / den).log2 + 1) := by
  have hpow : 2 ^ ((num / den).log2 + 1) =
      2 ^ ((num / den).log2 + 1 - ((num / den).log2 - 52)) * spacing (num / den) := by
    unfold spacing
    rw [Nat.pow_eq, ← Nat.pow_add, Nat.sub_add_cancel (by omega)]
  have hquotient :
      num / den / spacing (num / den) < 2 ^ ((num / den).log2 + 1 - ((num / den).log2 - 52)) := by
    rw [Nat.div_lt_iff_lt_mul (spacing_pos _), ← hpow]
    exact Nat.lt_log2_self
  rw [hpow]
  apply Nat.mul_le_mul_right
  rw [Nat.div_div_eq_div_mul] at hquotient
  exact (roundDiv_le_div_succ _ _).trans hquotient

theorem roundUnits_mono {num den num' den' : Nat} (hden : 0 < den) (hden' : 0 < den')
    (h : num * den' ≤ num' * den) : roundUnits num den ≤ roundUnits num' den' := by
  have hlog : (num / den).log2 ≤ (num' / den').log2 := by
    rw [Nat.log2_eq_log_two, Nat.log2_eq_log_two]
    exact Nat.log_mono_right (div_le_div_of_cross hden hden' h)
  rcases Nat.lt_or_eq_of_le (hlog) with hlt | heq
  -- A power of two lies between the two numbers.
  · have hne : num' / den' ≠ 0 := by
      intro hzero
      rw [hzero] at hlt
      exact absurd hlt (Nat.not_lt_zero _)
    calc
      roundUnits num den ≤ 2 ^ ((num / den).log2 + 1) := roundUnits_le_two_pow _ _
      _ ≤ 2 ^ (num' / den').log2 := Nat.pow_le_pow_right (by decide) hlt
      _ ≤ roundUnits num' den' := two_pow_le_roundUnits hne
  · have hstep : spacing (num / den) = spacing (num' / den') := by
      rw [spacing, spacing, heq]
    unfold roundUnits
    rw [hstep]
    apply Nat.mul_le_mul_right
    have hpos : 0 < spacing (num' / den') := spacing_pos _
    apply roundDiv_mono (Nat.mul_pos hden hpos) (Nat.mul_pos hden' hpos)
    rw [← Nat.mul_assoc, ← Nat.mul_assoc]
    exact Nat.mul_le_mul_right _ h

/-- Equal ratios are rounded alike. -/
theorem roundUnits_congr {num den num' den' : Nat} (hden : 0 < den) (hden' : 0 < den')
    (h : num * den' = num' * den) : roundUnits num den = roundUnits num' den' :=
  Nat.le_antisymm (roundUnits_mono hden hden' h.le) (roundUnits_mono hden' hden h.ge)

theorem roundUnits_of_exact {units : Nat} (h : Exact units) : roundUnits units 1 = units := by
  have hmod : units % spacing units = 0 := h
  have hround : roundDiv units (spacing units) = units / spacing units := by
    unfold roundDiv
    dsimp only
    rw [hmod, if_pos (spacing_pos units)]
  have hunits : roundUnits units 1 = roundDiv units (spacing units) * spacing units := by
    simp [roundUnits]
  rw [hunits, hround, Nat.div_mul_cancel (Nat.dvd_of_mod_eq_zero hmod)]

/-! ## Finite doubles -/

theorem double_word_lt_limit : 2 * (2 ^ 64 * one) < limit := by
  decide +kernel

-- Reduction must not run into the powers of two behind these two names.
attribute [local irreducible] one limit

theorem isFinite_ofUnits_iff {negative : Bool} {num den : Nat} :
    (ofUnits negative num den).isFinite = true ↔ roundUnits num den < limit := by
  unfold ofUnits
  split
  · next h => simp [isFinite, h]
  · next h => simp [isFinite, h]

/-- A whole number of 64 bits has a finite nearest double. -/
theorem isFinite_ofInt {n : Int} (h : n.natAbs ≤ 2 ^ 64) : (ofInt n).isFinite = true := by
  have hunits : n.natAbs * one ≤ 2 ^ 64 * one := Nat.mul_le_mul_right one h
  unfold ofInt ofRatio
  apply isFinite_ofUnits_iff.mpr
  calc
    roundUnits (n.natAbs * one) 1 ≤ 2 * (n.natAbs * one) := roundUnits_one_le _
    _ ≤ 2 * (2 ^ 64 * one) := Nat.mul_le_mul_left 2 hunits
    _ < limit := double_word_lt_limit

end Binary64

end DataCatalog
