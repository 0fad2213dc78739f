import DataCatalog.Json.Writer
import Mathlib

/-!
# Documents on one line

The written form of a document has no character below the space.  Texts are the only part of a
document that could bring one in, and there they are escaped; numbers consist of digits, signs,
points and the letter of the exponent.  A written document is therefore one line.
-/

namespace DataCatalog

namespace Text

/-- No character of the text is below the space, so that there is no line end in it. -/
def Unbroken (s : List Char) : Prop :=
  ∀ c ∈ s, ' ' ≤ c

@[simp] theorem unbroken_nil : Unbroken [] :=
  List.forall_mem_nil _

@[simp] theorem unbroken_cons {c : Char} {s : List Char} :
    Unbroken (c :: s) ↔ ' ' ≤ c ∧ Unbroken s :=
  List.forall_mem_cons

@[simp] theorem unbroken_append {s t : List Char} :
    Unbroken (s ++ t) ↔ Unbroken s ∧ Unbroken t :=
  List.forall_mem_append

namespace Unbroken

variable {s t : List Char}

theorem of_subset (h : Unbroken t) (hsub : s ⊆ t) : Unbroken s :=
  fun c hc => h c (hsub hc)

theorem take (h : Unbroken s) (n : Nat) : Unbroken (s.take n) :=
  h.of_subset (List.take_subset n s)

theorem drop (h : Unbroken s) (n : Nat) : Unbroken (s.drop n) :=
  h.of_subset (List.drop_subset n s)

theorem lineFeed_notMem (h : Unbroken s) : '\n' ∉ s :=
  fun hmem => absurd (h '\n' hmem) (by decide)

end Unbroken

theorem unbroken_replicate {c : Char} (h : ' ' ≤ c) (n : Nat) :
    Unbroken (List.replicate n c) := by
  intro d hd
  rw [List.eq_of_mem_replicate hd]
  exact h

theorem space_le_of_isDigit {c : Char} (h : c.isDigit = true) : ' ' ≤ c := by
  simp only [Char.isDigit, Bool.and_eq_true, decide_eq_true_eq] at h
  exact le_trans (by decide) h.1

theorem unbroken_toDigits (n : Nat) : Unbroken (Nat.toDigits 10 n) :=
  fun _ hc => space_le_of_isDigit (Nat.isDigit_of_mem_toDigits (by decide) (by decide) hc)

theorem unbroken_writeInt (n : Int) : Unbroken (writeInt n) := by
  have hsign : Unbroken (if n < 0 then ['-'] else []) := by
    split <;> simp
  exact unbroken_append.mpr ⟨hsign, unbroken_toDigits n.natAbs⟩

theorem space_le_lowerHex {n : Nat} (h : n < 16) : ' ' ≤ lowerHex n := by
  have all : ∀ m : Fin 16, ' ' ≤ lowerHex m := by decide
  exact all ⟨n, h⟩

end Text

namespace Decimal

open Text

theorem unbroken_positional (point : Bool) (d : Decimal) : Unbroken (d.positional point) := by
  have hdigits : Unbroken d.digits := unbroken_toDigits d.coefficient
  have hzeros (n : Nat) : Unbroken (List.replicate n '0') := unbroken_replicate (by decide) n
  unfold positional
  split
  · have hpoint : Unbroken (if point then ['.', '0'] else []) := by
      split <;> simp
    exact unbroken_append.mpr ⟨unbroken_append.mpr ⟨hdigits, hzeros _⟩, hpoint⟩
  · have hpadded (n : Nat) : Unbroken (List.replicate n '0' ++ d.digits) :=
      unbroken_append.mpr ⟨hzeros n, hdigits⟩
    exact unbroken_append.mpr
      ⟨(hpadded _).take _, unbroken_cons.mpr ⟨by decide, (hpadded _).drop _⟩⟩

theorem unbroken_scientific (d : Decimal) : Unbroken d.scientific := by
  have hdigits : Unbroken d.digits := unbroken_toDigits d.coefficient
  have hexponent : Unbroken
      ('e' :: (if d.leading < 0 then '-' else '+') :: Nat.toDigits 10 d.leading.natAbs) := by
    have hsign : ' ' ≤ if d.leading < 0 then '-' else '+' := by
      split <;> decide
    exact unbroken_cons.mpr ⟨by decide, unbroken_cons.mpr ⟨hsign, unbroken_toDigits _⟩⟩
  unfold scientific
  dsimp only
  split
  · next first second rest hsplit =>
      rw [hsplit, unbroken_cons] at hdigits
      have hpointed : Unbroken (first :: '.' :: second :: rest) := by
        simp [hdigits.1, unbroken_cons.mp hdigits.2]
      exact unbroken_append.mpr ⟨hpointed, hexponent⟩
  · exact unbroken_append.mpr ⟨hdigits, hexponent⟩

end Decimal

namespace Json

open Text

theorem unbroken_escape (c : Char) : Unbroken (escape c) := by
  unfold escape
  -- The quote, the backslash and the controls that have a letter of their own.
  iterate 7
    split
    · simp
  split
  · next hcontrol =>
      have hhigh : ' ' ≤ lowerHex (c.toNat / 16) := space_le_lowerHex (by omega)
      have hlow : ' ' ≤ lowerHex (c.toNat % 16) := space_le_lowerHex (by omega)
      simp [hhigh, hlow]
  · next hplain =>
      have hspace : ' ' ≤ c := Char.le_def.mpr (UInt32.le_iff_toNat_le.mpr (not_lt.mp hplain))
      simp [hspace]

theorem unbroken_quote (s : List Char) : Unbroken (quote s) := by
  have hescaped : Unbroken (s.flatMap escape) := by
    intro c hc
    obtain ⟨d, _, hd⟩ := List.mem_flatMap.mp hc
    exact unbroken_escape d c hd
  simp [quote, hescaped]

theorem unbroken_writeMagnitude (units : Nat) : Unbroken (writeMagnitude units) := by
  unfold writeMagnitude
  split
  · simp
  · dsimp only
    split
    · exact Decimal.unbroken_positional true _
    · exact Decimal.unbroken_scientific _

theorem Number.unbroken_write (n : Number) : Unbroken n.write := by
  cases n with
  | integer n _ _ => exact unbroken_writeInt n
  | float x =>
      have hsign : Unbroken (if x.negative then ['-'] else []) := by
        split <;> simp
      exact unbroken_append.mpr ⟨hsign, unbroken_writeMagnitude x.units⟩

mutual

theorem unbroken_write : (value : Json) → Unbroken value.write
  | .null => by simp [write]
  | .bool true => by simp [write]
  | .bool false => by simp [write]
  | .number n => by
      rw [write]
      exact n.unbroken_write
  | .string s => by
      rw [write]
      exact unbroken_quote _
  | .array [] => by simp [write]
  | .array (item :: rest) => by
      have hitem := unbroken_write item
      have hrest := unbroken_writeItems rest
      simp [write, hitem, hrest]
  | .object [] => by simp [write]
  | .object ((key, value) :: rest) => by
      have hkey := unbroken_quote key.toList
      have hvalue := unbroken_write value
      have hrest := unbroken_writeMembers rest
      simp [write, hkey, hvalue, hrest]

theorem unbroken_writeItems : (items : List Json) → Unbroken (writeItems items)
  | [] => by simp [writeItems]
  | item :: rest => by
      have hitem := unbroken_write item
      have hrest := unbroken_writeItems rest
      simp [writeItems, hitem, hrest]

theorem unbroken_writeMembers : (members : List (String × Json)) → Unbroken (writeMembers members)
  | [] => by simp [writeMembers]
  | (key, value) :: rest => by
      have hkey := unbroken_quote key.toList
      have hvalue := unbroken_write value
      have hrest := unbroken_writeMembers rest
      simp [writeMembers, hkey, hvalue, hrest]

end

/-- A written document is one line. -/
theorem lineFeed_notMem_render (value : Json) : '\n' ∉ value.render.toList := by
  rw [render, String.toList_ofList]
  exact value.unbroken_write.lineFeed_notMem

end Json

end DataCatalog
