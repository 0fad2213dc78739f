/-!
# Double-precision numbers

A finite double is a sign and a whole number of units, the unit being the least positive double
`2 ^ -1074`; a magnitude is a double when it has at most 53 significant bits and stays below
`2 ^ 1024`.  Every operation is the exact one followed by one rounding to the nearest double, a tie
going to the even neighbour.  Main statement: rounding always yields a magnitude of at most 53 bits.
-/

namespace DataCatalog

/-- The nearest natural number to `num / den`; a half goes to the even neighbour. -/
def roundDiv (num den : Nat) : Nat :=
  let q := num / den
  let r := num % den
  if 2 * r < den then q
  else if den < 2 * r then q + 1
  else if q % 2 = 0 then q else q + 1

theorem div_le_roundDiv (num den : Nat) : num / den ≤ roundDiv num den := by
  unfold roundDiv
  dsimp only
  split
  · exact Nat.le_refl _
  · split
    · exact Nat.le_succ _
    · split
      · exact Nat.le_refl _
      · exact Nat.le_succ _

theorem roundDiv_le_div_succ (num den : Nat) : roundDiv num den ≤ num / den + 1 := by
  unfold roundDiv
  dsimp only
  split
  · exact Nat.le_succ _
  · split
    · exact Nat.le_refl _
    · split
      · exact Nat.le_succ _
      · exact Nat.le_refl _

@[simp] theorem roundDiv_one (num : Nat) : roundDiv num 1 = num := by
  simp [roundDiv, Nat.mod_one]

namespace Binary64

/-- One, counted in units of the least positive double. -/
def one : Nat := Nat.pow 2 1074

/-- The first magnitude, in units, that is too large. -/
def limit : Nat := Nat.pow 2 2098

theorem limit_pos : 0 < limit := by decide +kernel

theorem one_pos : 0 < one := by decide +kernel

/-- The magnitude has at most 53 significant bits. -/
def Exact (units : Nat) : Prop :=
  units % Nat.pow 2 (units.log2 - 52) = 0

instance (units : Nat) : Decidable (Exact units) :=
  inferInstanceAs (Decidable (_ = 0))

/-- The spacing of doubles around a magnitude of the given whole part. -/
def spacing (units : Nat) : Nat :=
  Nat.pow 2 (units.log2 - 52)

/-- The nearest magnitude of at most 53 bits to `num / den` units. -/
def roundUnits (num den : Nat) : Nat :=
  let step := spacing (num / den)
  roundDiv num (den * step) * step

theorem div_spacing_lt (q : Nat) : q / spacing q < Nat.pow 2 53 := by
  unfold spacing
  simp only [Nat.pow_eq]
  rw [Nat.div_lt_iff_lt_mul (Nat.two_pow_pos _), ← Nat.pow_add]
  refine Nat.lt_of_lt_of_le Nat.lt_log2_self (Nat.pow_le_pow_right (by decide) ?_)
  omega

theorem exact_of_le {m s : Nat} (h : m ≤ Nat.pow 2 53) : Exact (m * Nat.pow 2 s) := by
  unfold Exact
  simp only [Nat.pow_eq] at h ⊢
  rcases Nat.eq_zero_or_pos m with rfl | hm
  · simp
  have hpos : m * 2 ^ s ≠ 0 := Nat.ne_of_gt (Nat.mul_pos hm (Nat.two_pow_pos s))
  rcases Nat.lt_or_eq_of_le h with hlt | rfl
  · have hlog : (m * 2 ^ s).log2 < 53 + s := by
      rw [Nat.log2_lt hpos, Nat.pow_add]
      exact Nat.mul_lt_mul_of_pos_right hlt (Nat.two_pow_pos s)
    have hdvd : 2 ^ ((m * 2 ^ s).log2 - 52) ∣ m * 2 ^ s :=
      Nat.dvd_mul_left_of_dvd (Nat.pow_dvd_pow 2 (by omega)) m
    exact Nat.mod_eq_zero_of_dvd hdvd
  · rw [← Nat.pow_add, Nat.log2_two_pow]
    exact Nat.mod_eq_zero_of_dvd (Nat.pow_dvd_pow 2 (by omega))

/-- Rounding yields a magnitude of at most 53 significant bits. -/
theorem exact_roundUnits (num den : Nat) : Exact (roundUnits num den) := by
  unfold roundUnits
  refine exact_of_le (Nat.le_trans (roundDiv_le_div_succ _ _) ?_)
  rw [← Nat.div_div_eq_div_mul]
  exact div_spacing_lt (num / den)

structure Finite where
  negative : Bool
  units : Nat
  exact : Exact units
  bounded : units < limit
  deriving DecidableEq

namespace Finite

def isZero (x : Finite) : Bool :=
  x.units == 0

def zero (negative : Bool) : Finite where
  negative := negative
  units := 0
  exact := Nat.zero_mod _
  bounded := limit_pos

/-- Equality of numbers: the two zeros are equal. -/
def same (x y : Finite) : Bool :=
  (x.units == 0 && y.units == 0) || (x.negative == y.negative && x.units == y.units)

/-- The whole part, the fraction being cut off. -/
def truncate (x : Finite) : Int :=
  if x.negative then -((x.units / one : Nat) : Int) else ((x.units / one : Nat) : Int)

end Finite

end Binary64

/-- A double: not a number, an infinity, or a finite number. -/
inductive Binary64 where
  | nan
  | infinite (negative : Bool)
  | finite (value : Binary64.Finite)
  deriving DecidableEq

namespace Binary64

/-- The nearest double to `num / den` units; infinite from `2 ^ 1024` on. -/
def ofUnits (negative : Bool) (num den : Nat) : Binary64 :=
  if h : roundUnits num den < limit then
    .finite ⟨negative, roundUnits num den, exact_roundUnits num den, h⟩
  else
    .infinite negative

def ofRatio (negative : Bool) (num den : Nat) : Binary64 :=
  ofUnits negative (num * one) den

def ofInt (n : Int) : Binary64 :=
  ofRatio (decide (n < 0)) n.natAbs 1

def isFinite : Binary64 → Bool
  | .finite _ => true
  | _ => false

def mul : Binary64 → Binary64 → Binary64
  | .nan, _ => .nan
  | _, .nan => .nan
  | .infinite s, .infinite t => .infinite (s != t)
  | .infinite s, .finite y => if y.isZero then .nan else .infinite (s != y.negative)
  | .finite x, .infinite t => if x.isZero then .nan else .infinite (x.negative != t)
  | .finite x, .finite y => ofUnits (x.negative != y.negative) (x.units * y.units) one

/-- The quotient, rounded once; a number divided by zero is infinite. -/
def div : Binary64 → Binary64 → Binary64
  | .nan, _ => .nan
  | _, .nan => .nan
  | .infinite _, .infinite _ => .nan
  | .infinite s, .finite y => .infinite (s != y.negative)
  | .finite x, .infinite t => .finite (.zero (x.negative != t))
  | .finite x, .finite y =>
    if y.isZero then
      if x.isZero then .nan else .infinite (x.negative != y.negative)
    else
      ofUnits (x.negative != y.negative) (x.units * one) y.units

/-- Equality of numbers: not a number differs from itself, and the two zeros are equal. -/
def same : Binary64 → Binary64 → Bool
  | .infinite s, .infinite t => s == t
  | .finite x, .finite y => x.same y
  | _, _ => false

def isZero : Binary64 → Bool
  | .finite x => x.isZero
  | _ => false

end Binary64

end DataCatalog
