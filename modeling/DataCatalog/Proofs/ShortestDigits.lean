import DataCatalog.Proofs.Scaling

/-!
# The shortest digits of a double

The search for the shortest digits looks at decimals of at most 17 digits that read back as the
double, and trailing zeros are dropped afterwards.  Dropping them keeps the value, so the result
reads back as the double too.  The one decimal of so few digits that is read as infinite is never
the result: the double that it is nearest to has a nearer decimal.
-/

namespace DataCatalog

open Binary64

/-! ## The value of a decimal -/

theorem Decimal.units_snd_pos (d : Decimal) : 0 < d.units.2 := by
  unfold units
  split
  · exact Nat.one_pos
  · exact Nat.pow_pos (by decide)

theorem Decimal.roundedUnits_congr {d e : Decimal}
    (h : d.units.1 * e.units.2 = e.units.1 * d.units.2) : d.roundedUnits = e.roundedUnits :=
  roundUnits_congr d.units_snd_pos e.units_snd_pos h

theorem Decimal.roundedUnits_shift (coefficient : Nat) (exponent : Int) :
    (Decimal.mk (coefficient * 10) exponent).roundedUnits =
      (Decimal.mk coefficient (exponent + 1)).roundedUnits := by
  apply roundedUnits_congr
  unfold units
  dsimp only
  by_cases hwhole : 0 ≤ exponent
  · obtain ⟨n, rfl⟩ := Int.eq_ofNat_of_zero_le hwhole
    have hnext : ((n : Int) + 1).toNat = n + 1 := by omega
    rw [if_pos hwhole, if_pos (by omega), Int.toNat_natCast, hnext]
    simp only [Nat.pow_eq, Nat.pow_succ]
    ring
  · obtain ⟨n, rfl⟩ : ∃ n : Nat, exponent = -(n + 1 : Nat) := ⟨(-exponent - 1).toNat, by omega⟩
    have hplaces : (-(-((n + 1 : Nat) : Int))).toNat = n + 1 := by omega
    rw [if_neg hwhole, hplaces]
    split
    · next hzero =>
        have hn : n = 0 := by omega
        subst hn
        simp [Nat.mul_right_comm]
    · have hfewer : (-(-((n + 1 : Nat) : Int) + 1)).toNat = n := by omega
      rw [hfewer]
      simp only [Nat.pow_eq, Nat.pow_succ]
      ring

theorem Decimal.roundedUnits_of_coefficient {d : Decimal} (h : d.coefficient = 0) :
    d.roundedUnits = 0 := by
  unfold roundedUnits units
  split <;> simp [h, roundUnits, roundDiv, spacing]

namespace Binary64

theorem roundedUnits_dropZeros (count : Nat) (d : Decimal) :
    (dropZeros count d).roundedUnits = d.roundedUnits := by
  induction count generalizing d with
  | zero => rfl
  | succ count ih =>
      unfold dropZeros
      split
      · next hzero =>
          rw [ih, ← Decimal.roundedUnits_shift, Nat.div_mul_cancel (Nat.dvd_of_mod_eq_zero hzero)]
      · rfl

theorem coefficient_dropZeros_le (count : Nat) (d : Decimal) :
    (dropZeros count d).coefficient ≤ d.coefficient := by
  induction count generalizing d with
  | zero => exact Nat.le_refl _
  | succ count ih =>
      unfold dropZeros
      split
      · exact (ih _).trans (Nat.div_le_self _ _)
      · exact Nat.le_refl _

/-- A decimal that ends in no zero stays as it is. -/
theorem dropZeros_cases (count : Nat) (d : Decimal) :
    dropZeros count d = d ∨ (dropZeros count d).coefficient * 10 ≤ d.coefficient := by
  cases count with
  | zero => exact .inl rfl
  | succ count =>
      unfold dropZeros
      split
      · right
        calc
          (dropZeros count ⟨d.coefficient / 10, d.exponent + 1⟩).coefficient * 10 ≤
              d.coefficient / 10 * 10 := Nat.mul_le_mul_right 10 (coefficient_dropZeros_le _ _)
          _ ≤ d.coefficient := Nat.div_mul_le_self _ _
      · exact .inl rfl

-- Reduction must not run into the powers of two behind these two names.
attribute [local irreducible] one limit

/-! ## The number of digits -/

theorem lt_pow_digitCount (n : Nat) : n < 10 ^ digitCount n :=
  (Nat.length_toDigits_le_iff (by decide) Nat.length_toDigits_pos).mp (Nat.le_refl _)

section

variable {units unit size lead count : Nat} (h : units * Nat.pow 10 lead < 10 ^ size * unit)

include h

theorem div_lt_of_whole_power {power : Nat} (hunit : 0 < unit)
    (hsize : size = count + power + lead) : units / (unit * Nat.pow 10 power) < 10 ^ count := by
  subst hsize
  have hpower : 0 < unit * Nat.pow 10 power := Nat.mul_pos hunit (Nat.pow_pos (by decide))
  rw [Nat.div_lt_iff_lt_mul hpower]
  apply Nat.lt_of_mul_lt_mul_right (a := Nat.pow 10 lead)
  calc
    units * Nat.pow 10 lead < 10 ^ (count + power + lead) * unit := h
    _ = 10 ^ count * (unit * Nat.pow 10 power) * Nat.pow 10 lead := by
        rw [Nat.pow_add, Nat.pow_add, Nat.pow_eq, Nat.pow_eq]
        ring

theorem div_lt_of_fraction {places : Nat} (hunit : 0 < unit)
    (hplaces : count + lead = size + places) : units * Nat.pow 10 places / unit < 10 ^ count := by
  rw [Nat.div_lt_iff_lt_mul hunit]
  apply Nat.lt_of_mul_lt_mul_right (a := 10 ^ size)
  calc
    units * Nat.pow 10 places * 10 ^ size = units * Nat.pow 10 lead * 10 ^ count := by
        rw [Nat.pow_eq, Nat.pow_eq, Nat.mul_assoc, Nat.mul_assoc, ← Nat.pow_add, ← Nat.pow_add,
          Nat.add_comm lead, hplaces, Nat.add_comm places]
    _ < 10 ^ size * unit * 10 ^ count := Nat.mul_lt_mul_of_pos_right h (Nat.pow_pos (by decide))
    _ = 10 ^ count * unit * 10 ^ size := by ring

end

/-- In steps that leave `count` digits before the point, a magnitude has no more digits. -/
theorem inSteps_lt (units count : Nat) :
    (inSteps units (leadingPower units + 1 - count)).1 /
      (inSteps units (leadingPower units + 1 - count)).2 < 10 ^ count := by
  have hunits : units * Nat.pow 10 400 < 10 ^ digitCount (units * Nat.pow 10 400 / one) * one :=
    (Nat.div_lt_iff_lt_mul one_pos).mp (lt_pow_digitCount _)
  unfold leadingPower
  generalize digitCount (units * Nat.pow 10 400 / one) = size at hunits ⊢
  unfold inSteps
  split
  · exact div_lt_of_whole_power hunits one_pos (by omega)
  · exact div_lt_of_fraction hunits one_pos (by omega)

theorem nearerNeighbour_le (tie : Tie) (num den : Nat) :
    nearerNeighbour tie num den ≤ num / den + 1 := by
  unfold nearerNeighbour
  dsimp only
  split
  · omega
  · split
    · omega
    · cases tie
      · exact Nat.le_refl _
      · dsimp only
        split <;> omega

theorem coefficient_le_of_mem_neighbours {tie : Tie} {units bound : Nat} {power : Int}
    {d : Decimal} (hbound : (inSteps units power).1 / (inSteps units power).2 < bound)
    (h : d ∈ neighbours tie units power) : d.coefficient ≤ bound := by
  unfold neighbours at h
  dsimp only at h
  have hnearer := nearerNeighbour_le tie (inSteps units power).1 (inSteps units power).2
  simp only [List.mem_cons, List.not_mem_nil, or_false] at h
  rcases h with rfl | rfl | rfl
  · exact hnearer.trans hbound
  · exact Nat.le_of_lt hbound
  · exact hbound

theorem exponent_of_mem_neighbours {tie : Tie} {units : Nat} {power : Int} {d : Decimal}
    (h : d ∈ neighbours tie units power) : d.exponent = power := by
  unfold neighbours at h
  dsimp only at h
  simp only [List.mem_cons, List.not_mem_nil, or_false] at h
  rcases h with rfl | rfl | rfl <;> rfl

theorem coefficient_le_of_mem_candidates {tie : Tie} {units count : Nat} {d : Decimal}
    (h : d ∈ candidates tie units count) : d.coefficient ≤ 10 ^ count :=
  coefficient_le_of_mem_neighbours (inSteps_lt units count) h

/-! ## The shortest digits -/

section

variable {tie : Tie} {units : Nat} {d : Decimal}
  (h : (List.range' 1 17).findSome? (ofDigitCount? tie units) = some d)

include h

theorem exists_count_of_findSome? :
    ∃ count ≤ 17, (candidates tie units count).find? (readsBack units) = some d := by
  obtain ⟨count, hcount, hd⟩ := List.exists_of_findSome?_eq_some h
  rw [List.mem_range'_1] at hcount
  exact ⟨count, by omega, hd⟩

theorem shortest_eq_dropZeros : shortest tie units = dropZeros 17 d := by
  rw [shortest, h]
  rfl

theorem coefficient_le_of_findSome? : d.coefficient ≤ 10 ^ 17 := by
  obtain ⟨count, hle, hd⟩ := exists_count_of_findSome? h
  calc
    d.coefficient ≤ 10 ^ count := coefficient_le_of_mem_candidates (List.mem_of_find?_eq_some hd)
    _ ≤ 10 ^ 17 := Nat.pow_le_pow_right (by decide) hle

/-- A decimal that the search finds reads back, also without its trailing zeros. -/
theorem shortest_of_findSome? :
    (shortest tie units).coefficient ≤ 10 ^ 17 ∧ (shortest tie units).roundedUnits = units := by
  obtain ⟨count, -, hd⟩ := exists_count_of_findSome? h
  have hback : d.roundedUnits = units := beq_iff_eq.mp (readsBack_of_ofDigitCount? hd)
  rw [shortest_eq_dropZeros h]
  exact ⟨(coefficient_dropZeros_le _ _).trans (coefficient_le_of_findSome? h),
    (roundedUnits_dropZeros 17 d).trans hback⟩

end

/-- The shortest digits read back, unless the search has found none. -/
theorem shortest_cases (tie : Tie) (units : Nat) :
    shortest tie units = ⟨0, 0⟩ ∨
      (shortest tie units).coefficient ≤ 10 ^ 17 ∧
        (shortest tie units).roundedUnits = units := by
  cases hfound : (List.range' 1 17).findSome? (ofDigitCount? tie units) with
  | none =>
      left
      rw [shortest, hfound]
      rfl
  | some d => exact .inr (shortest_of_findSome? hfound)

/-- The nearest decimal is taken where it reads back. -/
theorem eq_nearest_of_find? {tie : Tie} {units : Nat} {power : Int} {d nearest : Decimal}
    (hnearest : (neighbours tie units power).head? = some nearest)
    (hback : nearest.roundedUnits = units)
    (h : (neighbours tie units power).find? (readsBack units) = some d) : d = nearest := by
  obtain ⟨others, hothers⟩ := List.head?_eq_some_iff.mp hnearest
  have hreads : readsBack units nearest = true := beq_iff_eq.mpr hback
  rw [hothers, List.find?_cons_of_pos hreads] at h
  exact (Option.some_inj.mp h).symm

/-- Both decimals are read as the greatest double, and the other one is nearer to it. -/
theorem nearest_greatest :
    (neighbours .even (Decimal.mk 17976931348623158 292).roundedUnits 292).head? =
        some ⟨17976931348623157, 292⟩ ∧
      (Decimal.mk 17976931348623157 292).roundedUnits =
        (Decimal.mk 17976931348623158 292).roundedUnits := by
  decide +kernel

/-- The greatest double has a nearer decimal. -/
theorem shortest_even_ne (units : Nat) : shortest .even units ≠ ⟨17976931348623158, 292⟩ := by
  intro h
  cases hfound : (List.range' 1 17).findSome? (ofDigitCount? .even units) with
  | none =>
      rw [shortest, hfound] at h
      cases h
  | some d =>
      have hdrop := shortest_eq_dropZeros hfound
      rw [h] at hdrop
      -- With a zero more, the decimal would have 18 digits.
      have hd : d = ⟨17976931348623158, 292⟩ := by
        rcases dropZeros_cases 17 d with hsame | hlonger
        · exact hsame.symm.trans hdrop.symm
        · have hdigits := coefficient_le_of_findSome? hfound
          rw [← hdrop] at hlonger
          dsimp only at hlonger
          omega
      subst hd
      obtain ⟨count, -, hfind⟩ := exists_count_of_findSome? hfound
      have hback : _ = units := beq_iff_eq.mp (readsBack_of_ofDigitCount? hfind)
      have hpower := exponent_of_mem_neighbours (List.mem_of_find?_eq_some hfind)
      rw [candidates, ← hpower, ← hback] at hfind
      have heq := eq_nearest_of_find? nearest_greatest.1 nearest_greatest.2 hfind
      exact absurd (congrArg Decimal.coefficient heq) (by decide)

end Binary64

/-- What a double is written as: no digits but zero are zero, and they are read as finite. -/
structure Decimal.Writable (d : Decimal) : Prop where
  zero : d.coefficient = 0 → d = ⟨0, 0⟩
  digits : d.coefficient ≤ 10 ^ 17
  finite : (Json.Numeral.scale d.coefficient d.exponent).isFinite = true

namespace Binary64

theorem writable_zero : (Decimal.mk 0 0).Writable where
  zero _ := rfl
  digits := Nat.zero_le _
  finite := Json.Numeral.isFinite_scale_of_word (by decide) (by decide)

theorem writable_shortest {units : Nat} (hzero : units ≠ 0) (h : units < limit) :
    (shortest .even units).Writable := by
  rcases shortest_cases .even units with hnone | ⟨hdigits, hback⟩
  · rw [hnone]
    exact writable_zero
  · refine ⟨fun hcoefficient => ?_, hdigits, ?_⟩
    · have hunits : (shortest .even units).roundedUnits = 0 :=
        Decimal.roundedUnits_of_coefficient hcoefficient
      exact absurd (hback.symm.trans hunits) hzero
    · apply Json.Numeral.isFinite_scale hdigits _ (shortest_even_ne units)
      rwa [hback]

end Binary64

end DataCatalog
