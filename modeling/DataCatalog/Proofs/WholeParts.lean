import DataCatalog.Proofs.WholeNumbers

/-!
# A number that is read as a whole number is cut off towards zero

A metadata entry that says it is a whole number may hold any number of a document.  What counts is
the exact value of this number, cut off towards zero: it is read if it fits in a signed word of 64
bits, and refused if it does not.  Whole numbers beyond that range take the way over a double, which
is rounded; rounding never leads back into the range, so nothing wraps around.
-/

namespace DataCatalog

/-- The number without its fraction. -/
def wholePart (q : ℚ) : Int :=
  if 0 ≤ q then ⌊q⌋ else ⌈q⌉

@[simp] theorem wholePart_intCast (n : Int) : wholePart n = n := by
  simp [wholePart]

theorem wholePart_neg (q : ℚ) : wholePart (-q) = -wholePart q := by
  rcases lt_trichotomy q 0 with hneg | rfl | hpos
  · simp [wholePart, Int.floor_neg, hneg.le, not_le.mpr hneg]
  · simp [wholePart]
  · simp [wholePart, Int.ceil_neg, hpos.le, not_le.mpr hpos]

/-- The exact value of a finite double. -/
def Binary64.Finite.value (x : Finite) : ℚ :=
  (if x.negative then -(x.units : ℚ) else x.units) / one

/-- The exact value of a number of a document. -/
def Json.Number.value : Json.Number → ℚ
  | .integer n _ _ => n
  | .float x => x.value

namespace Binary64

-- Reduction must not run into the powers of two behind these two names.
attribute [local irreducible] one limit

theorem truncate_eq (x : Finite) : x.truncate = wholePart x.value := by
  have hmagnitude : wholePart ((x.units : ℚ) / one) = (x.units / one : Nat) := by
    rw [wholePart, if_pos (by positivity), Rat.floor_natCast_div_natCast]
    rfl
  cases hsign : x.negative with
  | false => simp [Finite.truncate, Finite.value, hsign, hmagnitude]
  | true =>
      have hvalue : x.value = -((x.units : ℚ) / one) := by
        simp [Finite.value, hsign, neg_div]
      rw [hvalue, wholePart_neg, hmagnitude, Finite.truncate, hsign]
      rfl

end Binary64

/-- The number fits in a signed word of 64 bits. -/
def FitsInt64 (n : Int) : Prop :=
  -2 ^ 63 ≤ n ∧ n ≤ 2 ^ 63 - 1

instance (n : Int) : Decidable (FitsInt64 n) :=
  inferInstanceAs (Decidable (_ ∧ _))

theorem toInt_ofInt_of_fits {n : Int} (h : FitsInt64 n) : (Int64.ofInt n).toInt = n :=
  Int64.toInt_ofInt_of_le h.1 (Int.lt_of_le_sub_one h.2)

theorem Scalar.ofJson?_integer_eq (n : Json.Number) :
    Scalar.ofJson? .integer (.number n) =
      if FitsInt64 (wholePart n.value) then some (.integer (.ofInt (wholePart n.value)))
      else none := by
  cases n with
  | integer n lower upper =>
      have hfits : FitsInt64 n ↔ n < 2 ^ 63 := by
        unfold FitsInt64
        omega
      rw [Codec.ofJson?_whole, Codec.EntryForm.scalar?, Json.Number.value, wholePart_intCast]
      simp only [hfits, if_true]
  | float x =>
      have hread : (Binary64.finite x).toInt64? =
          if FitsInt64 x.truncate then some (Int64.ofInt x.truncate) else none := by
        rw [Binary64.toInt64?]
        refine if_congr ?_ rfl rfl
        unfold FitsInt64
        omega
      rw [Binary64.truncate_eq] at hread
      by_cases hfits : FitsInt64 (wholePart x.value)
      all_goals
        simp [ofJson?, Json.Number.toInt64?, Json.Number.toBinary64, Json.Number.value, hread,
          hfits]

namespace Codec

variable {c : Codec} {members : List (String × Json)} {key : String} {n : Json.Number}

/-- A number is read as the whole number that is left of its exact value without the fraction, if
this one fits in 64 bits; otherwise the entry is malformed, and the error names it. -/
theorem readTriple_truncates (hkey : Entries.get? "key" members = some (.string key))
    (htype : c.types.kindFor? (typeTag members) = some .integer)
    (hvalue : Entries.get? "value" members = some (.number n)) :
    (FitsInt64 (wholePart n.value) →
      ∃ i : Int64, i.toInt = wholePart n.value ∧
        Scalar.ofJson? .integer (.number n) = some (.integer i) ∧
        c.readTriple members = .ok (key, .integer i)) ∧
    (¬FitsInt64 (wholePart n.value) →
      Scalar.ofJson? .integer (.number n) = none ∧
        ∃ e, c.readTriple members = .error e ∧ e.kind = .malformed ∧ e.field = some key) := by
  have hread := Scalar.ofJson?_integer_eq n
  constructor
  · intro hfits
    rw [if_pos hfits] at hread
    refine ⟨.ofInt (wholePart n.value), toInt_ofInt_of_fits hfits, hread, ?_⟩
    simp [readTriple, hkey, htype, hvalue, hread]
  · intro hfits
    rw [if_neg hfits] at hread
    refine ⟨hread, (Cause.unreadableScalar (.number n) .integer).atField key, ?_, rfl, rfl⟩
    simp [readTriple, hkey, htype, hvalue, hread]

/-- At both ends of the range: the double `-2 ^ 63` is read as it is, and the whole number `2 ^ 63`
is refused. -/
theorem readTriple_truncates_ends :
    let c : Codec := ⟨.standard, none⟩
    let least : Json.Number :=
      .float ⟨true, 2 ^ 63 * Binary64.one, by decide +kernel, by decide +kernel⟩
    let beyond : Json.Number := .integer (2 ^ 63) (by decide) (by decide)
    (∃ i : Int64, i.toInt = -2 ^ 63 ∧
      c.readTriple (tripleMembers "id" (.number least) "integer") = .ok ("id", .integer i)) ∧
    ∃ e, c.readTriple (tripleMembers "id" (.number beyond) "integer") = .error e ∧
      e.kind = .malformed ∧ e.field = some "id" := by
  intro c least beyond
  have hone : (Binary64.one : ℚ) ≠ 0 := by
    exact_mod_cast Binary64.one_pos.ne'
  have hleast : wholePart least.value = -2 ^ 63 := by
    have hvalue : least.value = ((-2 ^ 63 : Int) : ℚ) := by
      simp only [least, Json.Number.value, Binary64.Finite.value, if_true]
      push_cast
      field_simp
    rw [hvalue, wholePart_intCast]
  have hbeyond : wholePart beyond.value = 2 ^ 63 := wholePart_intCast _
  have hfits : FitsInt64 (wholePart least.value) := by
    rw [hleast]
    decide
  have hrefused : ¬FitsInt64 (wholePart beyond.value) := by
    rw [hbeyond]
    decide
  have htriple (n : Json.Number) := @readTriple_truncates c
    (tripleMembers "id" (.number n) "integer") "id" n rfl rfl rfl
  constructor
  · obtain ⟨i, hi, -, hread⟩ := (htriple least).1 hfits
    exact ⟨i, hi.trans hleast, hread⟩
  · exact ((htriple beyond).2 hrefused).2

end Codec

end DataCatalog
