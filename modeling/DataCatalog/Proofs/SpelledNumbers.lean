import DataCatalog.Binary64.Numeral
import DataCatalog.Proofs.Numerals
import DataCatalog.Text.Integer

/-!
# Which whole numbers a text spells

A number is spelled in decimal digits, as many as one likes, and a plus may stand before them, or a
minus where numbers are signed.  A reader of numbers in a fixed range stops at the first digit that
leaves the range.  More digits only make a number greater, so what it reads are the spellings of all
numbers of the range.
-/

namespace DataCatalog.Text

/-- ASCII digits with this value; there is at least one. -/
def Digits (s : List Char) (n : Nat) : Prop :=
  s ≠ [] ∧ (∀ c ∈ s, c.isDigit = true) ∧ Nat.ofDigitChars 10 s 0 = n

/-- Digits, possibly after a plus. -/
def Spells (s : List Char) (n : Nat) : Prop :=
  Digits s n ∨ ∃ digits, s = '+' :: digits ∧ Digits digits n

variable {limit value n : Nat} {beyond : IntegerError}

theorem readDigits_eq_ok_iff {s : List Char} (hvalue : value ≤ limit) :
    readDigits limit beyond value s = .ok n ↔
      (∀ c ∈ s, c.isDigit = true) ∧ Nat.ofDigitChars 10 s value = n ∧ n ≤ limit := by
  induction s generalizing value with
  | nil =>
      have hread : readDigits limit beyond value [] = .ok value := rfl
      rw [hread, Nat.ofDigitChars_nil, Except.ok.injEq]
      constructor
      · rintro rfl
        exact ⟨by simp, rfl, hvalue⟩
      · exact fun h => h.2.1
  | cons c s ih =>
      have hnext : Nat.ofDigitChars 10 (c :: s) value =
          Nat.ofDigitChars 10 s (10 * value + digitValue c) := Nat.ofDigitChars_cons ..
      rw [hnext, List.forall_mem_cons, readDigits]
      by_cases hdigit : c.isDigit = true
      · by_cases hlimit : 10 * value + digitValue c ≤ limit
        · simp [hdigit, hlimit, ih]
        · have hle := Json.Numeral.le_ofDigitChars s (10 * value + digitValue c)
          have hbeyond : ¬(Nat.ofDigitChars 10 s (10 * value + digitValue c) = n ∧ n ≤ limit) := by
            omega
          simp [hdigit, hlimit, hbeyond]
      · simp [hdigit]

theorem readMagnitude_eq_ok_iff {s : List Char} :
    readMagnitude limit beyond s = .ok n ↔ Digits s n ∧ n ≤ limit := by
  rw [readMagnitude, Digits]
  by_cases hnil : s = []
  · simp [hnil]
  · rw [if_neg hnil, readDigits_eq_ok_iff (Nat.zero_le limit)]
    simp [hnil, and_assoc]

theorem map_readMagnitude_eq_ok_iff {β : Type} {f : Nat → β} {b : β} {s : List Char} :
    (readMagnitude limit beyond s).map f = .ok b ↔ ∃ n, Digits s n ∧ n ≤ limit ∧ f n = b := by
  constructor
  · intro h
    cases hread : readMagnitude limit beyond s with
    | error fault =>
        rw [hread] at h
        cases h
    | ok n =>
        rw [hread] at h
        cases h
        obtain ⟨hdigits, hle⟩ := readMagnitude_eq_ok_iff.mp hread
        exact ⟨n, hdigits, hle, rfl⟩
  · rintro ⟨n, hdigits, hle, rfl⟩
    rw [readMagnitude_eq_ok_iff.mpr ⟨hdigits, hle⟩]
    rfl

theorem map_ofNat_eq_ok_iff {s : List Char} {m : UInt64} :
    (readMagnitude 0xFFFFFFFFFFFFFFFF beyond s).map UInt64.ofNat = .ok m ↔ Digits s m.toNat := by
  rw [map_readMagnitude_eq_ok_iff]
  constructor
  · rintro ⟨n, hdigits, hle, rfl⟩
    rwa [UInt64.toNat_ofNat_of_lt' (Nat.lt_succ_of_le hle)]
  · intro h
    exact ⟨m.toNat, h, Nat.le_of_lt_succ m.toNat_lt, UInt64.ofNat_toNat⟩

theorem Digits.head_ne {s : List Char} (h : Digits s n) {c : Char} (hc : c.isDigit = false) :
    s.head? ≠ some c := by
  intro hhead
  have hdigit := h.2.1 c (List.mem_of_head? hhead)
  rw [hc] at hdigit
  cases hdigit

/-- Exactly the numbers of 64 bits are read. -/
theorem parseUInt64_eq_ok_iff {s : List Char} {m : UInt64} :
    parseUInt64 s = .ok m ↔ Spells s m.toNat := by
  unfold parseUInt64
  split
  · simp [Spells, Digits]
  · next digits =>
      rw [map_ofNat_eq_ok_iff]
      constructor
      · exact fun h => .inr ⟨digits, rfl, h⟩
      · rintro (h | ⟨_, hplus, h⟩)
        · exact absurd rfl (h.head_ne rfl)
        · cases hplus
          exact h
  · next _ hplus =>
      rw [map_ofNat_eq_ok_iff]
      constructor
      · exact .inl
      · rintro (h | ⟨digits, rfl, -⟩)
        · exact h
        · exact absurd rfl (hplus digits)

/-! ## Signs -/

/-- A text with an optional sign: whether the sign is a minus, and the text behind it. -/
inductive Signed : List Char → Bool → List Char → Prop
  | bare (body : List Char) : Signed body false body
  | plus (body : List Char) : Signed ('+' :: body) false body
  | minus (body : List Char) : Signed ('-' :: body) true body

theorem signed_splitSign (s : List Char) :
    Signed s (Binary64.splitSign s).1 (Binary64.splitSign s).2 := by
  unfold Binary64.splitSign
  split
  · exact .minus _
  · exact .plus _
  · exact .bare s

/-- A text behind the sign that has no sign itself is what is left when the sign is split off. -/
theorem Signed.splitSign_eq {s body : List Char} {negative : Bool} (h : Signed s negative body)
    (hminus : body.head? ≠ some '-') (hplus : body.head? ≠ some '+') :
    Binary64.splitSign s = (negative, body) := by
  cases h with
  | plus => rfl
  | minus => rfl
  | bare =>
      unfold Binary64.splitSign
      split
      · exact absurd rfl hminus
      · exact absurd rfl hplus
      · rfl

/-- Digits, possibly after a sign. -/
def SpellsInt (s : List Char) (n : Int) : Prop :=
  ∃ negative digits m, Signed s negative digits ∧ Digits digits m ∧
    n = if negative then -(m : Int) else m

theorem spellsInt_iff {s : List Char} {i : Int} :
    SpellsInt s i ↔ ∃ m : Nat, Digits (Binary64.splitSign s).2 m ∧
      i = if (Binary64.splitSign s).1 then -(m : Int) else m := by
  constructor
  · rintro ⟨negative, digits, m, hsign, hdigits, hvalue⟩
    rw [hsign.splitSign_eq (hdigits.head_ne rfl) (hdigits.head_ne rfl)]
    exact ⟨m, hdigits, hvalue⟩
  · rintro ⟨m, hdigits, hvalue⟩
    exact ⟨_, _, m, signed_splitSign s, hdigits, hvalue⟩

theorem map_int64_eq_ok_iff {s : List Char} {i : Int64} :
    (readMagnitude 0x7FFFFFFFFFFFFFFF beyond s).map Int64.ofNat = .ok i ↔
      ∃ m : Nat, Digits s m ∧ i.toInt = m := by
  rw [map_readMagnitude_eq_ok_iff]
  constructor
  · rintro ⟨m, hdigits, hle, rfl⟩
    exact ⟨m, hdigits, Int64.toInt_ofNat_of_lt (by omega)⟩
  · rintro ⟨m, hdigits, hvalue⟩
    have hlt := i.toInt_lt
    refine ⟨m, hdigits, by omega, ?_⟩
    rw [← Int64.toInt_inj, hvalue]
    exact Int64.toInt_ofNat_of_lt (by omega)

theorem parseInt64_minus_eq_ok_iff {s : List Char} {i : Int64} :
    parseInt64 ('-' :: s) = .ok i ↔ ∃ m : Nat, Digits s m ∧ i.toInt = -m := by
  have hread : parseInt64 ('-' :: s) =
      (readMagnitude 0x8000000000000000 .tooSmall s).map fun n : Nat => Int64.ofInt (-n) := by
    rw [parseInt64]
    cases readMagnitude 0x8000000000000000 .tooSmall s <;> rfl
  rw [hread, map_readMagnitude_eq_ok_iff]
  constructor
  · rintro ⟨m, hdigits, hle, rfl⟩
    exact ⟨m, hdigits, Int64.toInt_ofInt_of_le (by omega) (by omega)⟩
  · rintro ⟨m, hdigits, hvalue⟩
    have hle := i.le_toInt
    refine ⟨m, hdigits, by omega, ?_⟩
    rw [← Int64.toInt_inj, hvalue]
    exact Int64.toInt_ofInt_of_le (by omega) (by omega)

/-- Exactly the signed numbers of 64 bits are read. -/
theorem parseInt64_eq_ok_iff {s : List Char} {i : Int64} :
    parseInt64 s = .ok i ↔ SpellsInt s i.toInt := by
  rw [spellsInt_iff]
  unfold Binary64.splitSign
  split
  · exact parseInt64_minus_eq_ok_iff
  · exact map_int64_eq_ok_iff
  · next hminus hplus =>
      cases s with
      | nil => simp [parseInt64, Digits]
      | cons c rest =>
          rw [parseInt64]
          · exact map_int64_eq_ok_iff
          · simp
          · exact hminus
          · exact hplus

end DataCatalog.Text
