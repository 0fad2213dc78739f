import DataCatalog.Proofs.ShortestDigits

/-!
# Seventeen digits identify a double

Doubles of at most 53 bits stand so far apart that a number is rounded to the only one from which it
differs by no more than one part in `2 * 10 ^ 16`.  The nearest decimal of 17 digits is as close as
that.  So the search for the shortest digits always ends, and the nearest double to what it finds is
the double itself.
-/

namespace DataCatalog

theorem roundDiv_eq_of_near {num den k : Nat} (hlow : 2 * (den * k) < 2 * num + den)
    (hhigh : 2 * num < 2 * (den * k) + den) : roundDiv num den = k := by
  have hsplit : den * (num / den) + num % den = num := Nat.div_add_mod num den
  have hmod : num % den < den := Nat.mod_lt _ (by omega)
  have hle : num / den ≤ k := by
    by_contra hlarge
    have hnext : den * (k + 1) ≤ den * (num / den) := Nat.mul_le_mul_left den (by omega)
    rw [Nat.mul_succ] at hnext
    omega
  have hge : k ≤ num / den + 1 := by
    by_contra hsmall
    have hnext : den * (num / den + 2) ≤ den * k := Nat.mul_le_mul_left den (by omega)
    rw [Nat.mul_add] at hnext
    omega
  unfold roundDiv
  dsimp only
  rcases Nat.lt_or_eq_of_le hle with hlt | heq
  · obtain rfl : k = num / den + 1 := by omega
    rw [Nat.mul_succ] at hlow
    rw [if_neg (by omega), if_pos (by omega)]
  · rw [heq] at hsplit ⊢
    rw [if_pos (by omega)]

namespace Binary64

theorem spacing_dvd {units : Nat} (h : Exact units) : spacing units ∣ units :=
  Nat.dvd_of_mod_eq_zero h

theorem spacing_dvd_spacing {m n : Nat} (h : m.log2 ≤ n.log2) : spacing m ∣ spacing n :=
  Nat.pow_dvd_pow 2 (Nat.sub_le_sub_right h 52)

theorem lt_mul_spacing (units : Nat) : units < 2 ^ 53 * spacing units :=
  (Nat.div_lt_iff_lt_mul (spacing_pos units)).mp (div_spacing_lt units)

/-- The next double is at most the next power of two. -/
theorem add_spacing_le {units : Nat} (h : Exact units) :
    units + spacing units ≤ 2 ^ (units.log2 + 1) := by
  have hlt : units < 2 ^ (units.log2 + 1) := Nat.lt_log2_self
  have hpow : spacing units ∣ 2 ^ (units.log2 + 1) := Nat.pow_dvd_pow 2 (by omega)
  have hle : spacing units ≤ 2 ^ (units.log2 + 1) - units :=
    Nat.le_of_dvd (by omega) (Nat.dvd_sub hpow (spacing_dvd h))
  omega

section

variable {units num den : Nat}

/-- A number that hardly exceeds a double lies below the next power of two. -/
theorem log2_div_le (hexact : Exact units) (hden : 0 < den)
    (hhigh : 20000000000000000 * num ≤ 20000000000000000 * (units * den) + units * den) :
    (num / den).log2 ≤ units.log2 := by
  by_cases hzero : num / den = 0
  · rw [hzero]
    exact Nat.zero_le _
  have hnext : units * den + spacing units * den ≤ 2 ^ (units.log2 + 1) * den := by
    rw [← Nat.add_mul]
    exact Nat.mul_le_mul_right den (add_spacing_le hexact)
  have hsmall : units * den < 2 ^ 53 * (spacing units * den) := by
    rw [← Nat.mul_assoc]
    exact Nat.mul_lt_mul_of_pos_right (lt_mul_spacing units) hden
  have hlt : num < 2 ^ (units.log2 + 1) * den := by omega
  exact Nat.le_of_lt_succ ((Nat.log2_lt hzero).mpr ((Nat.div_lt_iff_lt_mul hden).mpr hlt))

/-- A double that hardly exceeds a number is small beside the spacing of doubles there. -/
theorem two_mul_lt_spacing (hden : 0 < den)
    (hlow : 20000000000000000 * (units * den) ≤ 20000000000000000 * num + units * den) :
    2 * (units * den) < 20000000000000000 * (den * spacing (num / den)) := by
  have hquotient : num / den + 1 ≤ 2 ^ 53 * spacing (num / den) := lt_mul_spacing (num / den)
  have hnum : num < 2 ^ 53 * (den * spacing (num / den)) := by
    calc
      num < den * (num / den + 1) := Nat.lt_mul_div_succ num hden
      _ ≤ den * (2 ^ 53 * spacing (num / den)) := Nat.mul_le_mul_left den hquotient
      _ = 2 ^ 53 * (den * spacing (num / den)) := Nat.mul_left_comm _ _ _
  omega

/-- A number that differs from a double by at most one part in `2 * 10 ^ 16` is rounded to it. -/
theorem roundUnits_of_near (hexact : Exact units) (hden : 0 < den)
    (hlow : 20000000000000000 * (units * den) ≤ 20000000000000000 * num + units * den)
    (hhigh : 20000000000000000 * num ≤ 20000000000000000 * (units * den) + units * den) :
    roundUnits num den = units := by
  -- The number may lie below a power of two that the double has reached; its steps are then finer.
  obtain ⟨k, hk⟩ : spacing (num / den) ∣ units :=
    (spacing_dvd_spacing (log2_div_le hexact hden hhigh)).trans (spacing_dvd hexact)
  have hstep := two_mul_lt_spacing hden hlow
  have hunits : den * spacing (num / den) * k = units * den := by
    rw [hk]
    ring
  have hround : roundDiv num (den * spacing (num / den)) = k := by
    apply roundDiv_eq_of_near
    · rw [hunits]
      omega
    · rw [hunits]
      omega
  rw [roundUnits, hround, Nat.mul_comm]
  exact hk.symm

end

/-! ## The nearest decimal of 17 digits -/

-- Reduction must not run into the powers of two behind these two names.
attribute [local irreducible] one limit

theorem nearerNeighbour_near (tie : Tie) (num : Nat) {den : Nat} (hden : 0 < den) :
    2 * num ≤ 2 * (nearerNeighbour tie num den * den) + den ∧
      2 * (nearerNeighbour tie num den * den) ≤ 2 * num + den := by
  apply near_of_nearer hden
  unfold nearerNeighbour
  cases tie
  · dsimp only
    split_ifs <;> omega
  · dsimp only
    split_ifs <;> omega

theorem pow_digitCount_le {n : Nat} (h : n ≠ 0) : 10 ^ (digitCount n - 1) ≤ n := by
  by_cases hone : digitCount n = 1
  · rw [hone]
    exact Nat.pos_of_ne_zero h
  · have hlength : 0 < digitCount n := Nat.length_toDigits_pos
    by_contra hlt
    have hle : digitCount n ≤ digitCount n - 1 :=
      (Nat.length_toDigits_le_iff (by decide) (by omega)).mpr (Nat.lt_of_not_le hlt)
    omega

section

variable {units unit size lead count : Nat} (h : 10 ^ size * unit ≤ units * Nat.pow 10 lead)

include h

theorem le_of_whole_power {power : Nat} (hsize : size = count + power + lead) :
    10 ^ count * (unit * Nat.pow 10 power) ≤ units := by
  subst hsize
  apply Nat.le_of_mul_le_mul_right _ (Nat.pow_pos (by decide) : 0 < 10 ^ lead)
  calc
    10 ^ count * (unit * Nat.pow 10 power) * 10 ^ lead = 10 ^ (count + power + lead) * unit := by
        rw [Nat.pow_add, Nat.pow_add, Nat.pow_eq]
        ring
    _ ≤ units * 10 ^ lead := h

theorem le_of_fraction {places : Nat} (hplaces : count + lead = size + places) :
    10 ^ count * unit ≤ units * Nat.pow 10 places := by
  apply Nat.le_of_mul_le_mul_right _ (Nat.pow_pos (by decide) : 0 < 10 ^ lead)
  calc
    10 ^ count * unit * 10 ^ lead = 10 ^ size * unit * 10 ^ places := by
        rw [Nat.mul_right_comm, ← Nat.pow_add, hplaces, Nat.pow_add, Nat.mul_right_comm]
    _ ≤ units * 10 ^ lead * 10 ^ places := Nat.mul_le_mul_right _ h
    _ = units * Nat.pow 10 places * 10 ^ lead := Nat.mul_right_comm _ _ _

end

theorem one_le_pow : one ≤ Nat.pow 10 400 := by
  decide +kernel

/-- In steps that leave `count + 1` digits before the point, a magnitude has no fewer digits. -/
theorem le_inSteps {units : Nat} (hne : units ≠ 0) (count : Nat) :
    10 ^ count * (inSteps units (leadingPower units + 1 - (count + 1 : Nat))).2 ≤
      (inSteps units (leadingPower units + 1 - (count + 1 : Nat))).1 := by
  have hone : one ≤ units * Nat.pow 10 400 :=
    one_le_pow.trans (Nat.le_mul_of_pos_left _ (Nat.pos_of_ne_zero hne))
  have hunits : 10 ^ (digitCount (units * Nat.pow 10 400 / one) - 1) * one ≤
      units * Nat.pow 10 400 :=
    (Nat.le_div_iff_mul_le one_pos).mp (pow_digitCount_le (Nat.div_pos hone one_pos).ne')
  have hsize : 0 < digitCount (units * Nat.pow 10 400 / one) := Nat.length_toDigits_pos
  unfold leadingPower
  generalize digitCount (units * Nat.pow 10 400 / one) = size at hunits hsize ⊢
  unfold inSteps
  split
  · exact le_of_whole_power hunits (by omega)
  · exact le_of_fraction hunits (by omega)

theorem roundUnits_nearerNeighbour (tie : Tie) {units den fraction : Nat} (hexact : Exact units)
    (hden : 0 < den) (hfraction : 0 < fraction) (hsteps : 10 ^ 16 * den ≤ units * fraction) :
    roundUnits (nearerNeighbour tie (units * fraction) den * den) fraction = units := by
  obtain ⟨hlow, hhigh⟩ := nearerNeighbour_near tie (units * fraction) hden
  apply roundUnits_of_near hexact hfraction
  · omega
  · omega

/-- In steps that leave 17 digits before the point, the nearest decimal is rounded to the double. -/
theorem roundedUnits_nearerNeighbour (tie : Tie) {units : Nat} {power : Int}
    (hexact : Exact units) (hsteps : 10 ^ 16 * (inSteps units power).2 ≤ (inSteps units power).1) :
    (Decimal.mk (nearerNeighbour tie (inSteps units power).1 (inSteps units power).2)
      power).roundedUnits = units := by
  unfold Decimal.roundedUnits Decimal.units
  unfold inSteps at hsteps ⊢
  dsimp only
  split
  · next hwhole =>
      rw [if_pos hwhole] at hsteps
      have hden : 0 < one * Nat.pow 10 power.toNat :=
        Nat.mul_pos one_pos (Nat.pow_pos (by decide))
      have hround := roundUnits_nearerNeighbour tie hexact hden Nat.one_pos (by rwa [Nat.mul_one])
      rw [Nat.mul_one] at hround
      rwa [Nat.mul_assoc, Nat.mul_comm _ one]
  · next hplaces =>
      rw [if_neg hplaces] at hsteps
      exact roundUnits_nearerNeighbour tie hexact one_pos (Nat.pow_pos (by decide)) hsteps

theorem nearest_mem_neighbours (tie : Tie) (units : Nat) (power : Int) :
    ⟨nearerNeighbour tie (inSteps units power).1 (inSteps units power).2, power⟩ ∈
      neighbours tie units power :=
  List.mem_cons_self

theorem roundedUnits_shortest (tie : Tie) {units : Nat} (hexact : Exact units) (h : units ≠ 0) :
    (shortest tie units).roundedUnits = units := by
  -- The search reaches 17 digits at the latest, and there the nearest decimal is good enough.
  have hnearest := roundedUnits_nearerNeighbour tie hexact (le_inSteps h 16)
  have hfound : ((List.range' 1 17).findSome? (ofDigitCount? tie units)).isSome := by
    rw [List.findSome?_isSome_iff]
    refine ⟨16 + 1, by decide, ?_⟩
    rw [ofDigitCount?, List.find?_isSome, candidates]
    exact ⟨_, nearest_mem_neighbours _ _ _, beq_iff_eq.mpr hnearest⟩
  obtain ⟨d, hd⟩ := Option.isSome_iff_exists.mp hfound
  exact (shortest_of_findSome? hd).2

end Binary64

end DataCatalog
