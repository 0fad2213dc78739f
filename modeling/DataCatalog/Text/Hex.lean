/-!
# Digits of base sixteen

One digit is written in lower or upper case and read in either.  Main statement: reading undoes
writing.
-/

namespace DataCatalog.Text

def lowerHex (n : Nat) : Char :=
  if n < 10 then Char.ofNat ('0'.toNat + n) else Char.ofNat ('a'.toNat + (n - 10))

def upperHex (n : Nat) : Char :=
  if n < 10 then Char.ofNat ('0'.toNat + n) else Char.ofNat ('A'.toNat + (n - 10))

def hexValue? (c : Char) : Option Nat :=
  if c.isDigit then some (c.toNat - '0'.toNat)
  else if 'a' ≤ c ∧ c ≤ 'f' then some (c.toNat - 'a'.toNat + 10)
  else if 'A' ≤ c ∧ c ≤ 'F' then some (c.toNat - 'A'.toNat + 10)
  else none

theorem hexValue?_lowerHex {n : Nat} (h : n < 16) : hexValue? (lowerHex n) = some n := by
  have all : ∀ m : Fin 16, hexValue? (lowerHex m) = some m.val := by decide
  exact all ⟨n, h⟩

theorem hexValue?_upperHex {n : Nat} (h : n < 16) : hexValue? (upperHex n) = some n := by
  have all : ∀ m : Fin 16, hexValue? (upperHex m) = some m.val := by decide
  exact all ⟨n, h⟩

end DataCatalog.Text
