import DataCatalog.Url.Basic
import Mathlib

/-!
# Percent-encoding is undone by decoding

A set that holds the percent sign itself leaves no doubt about what is an escape: decoding gives
back the bytes of the text, so two texts with the same encoding are the same.  The set for path
segments also holds the slash, and it holds no dot: an encoded segment is a single name in the path,
and it is a dot segment only if the text is one.
-/

namespace DataCatalog.Url

/-! ## Bytes of a text -/

/-- The UTF-8 form of a text. -/
def utf8 (s : List Char) : List UInt8 :=
  s.flatMap String.utf8EncodeChar

theorem utf8_injective {s t : List Char} (h : utf8 s = utf8 t) : s = t := by
  have hbytes : s.utf8Encode = t.utf8Encode := by
    simp only [List.utf8Encode]
    exact congrArg List.toByteArray h
  have hstrings : String.ofList s = String.ofList t := by
    apply String.toByteArray_inj.mp
    rw [String.toByteArray_ofList, String.toByteArray_ofList, hbytes]
  simpa using congrArg String.toList hstrings

theorem text?_utf8 (s : List Char) : text? (utf8 s) = some (String.ofList s) := by
  have hbytes : (utf8 s).toByteArray = (String.ofList s).toByteArray := by
    rw [String.toByteArray_ofList]
    rfl
  rw [text?, hbytes]
  unfold String.fromUTF8?
  rw [dif_pos (String.ofList s).isValidUTF8]
  rfl

/-! ## Decoding -/

theorem ofNat_nibbles (b : UInt8) : UInt8.ofNat (16 * (b.toNat / 16) + b.toNat % 16) = b := by
  rw [Nat.div_add_mod, UInt8.ofNat_toNat]

theorem decode_escapeByte (b : UInt8) (rest : List Char) :
    decode (escapeByte b ++ rest) = b :: decode rest := by
  have hbyte : b.toNat < 256 := b.toNat_lt
  have hhigh : Text.hexValue? (Text.upperHex (b.toNat / 16)) = some (b.toNat / 16) :=
    Text.hexValue?_upperHex (by omega)
  have hlow : Text.hexValue? (Text.upperHex (b.toNat % 16)) = some (b.toNat % 16) :=
    Text.hexValue?_upperHex (by omega)
  simp only [escapeByte, List.cons_append, List.nil_append, decode, hhigh, hlow, ofNat_nibbles]

theorem decode_escapeBytes (bytes : List UInt8) (rest : List Char) :
    decode (bytes.flatMap escapeByte ++ rest) = bytes ++ decode rest := by
  induction bytes with
  | nil => rfl
  | cons b bytes ih =>
      rw [List.flatMap_cons, List.append_assoc, decode_escapeByte, ih, List.cons_append]

theorem decode_cons_of_ne {c : Char} (h : c ≠ '%') (rest : List Char) :
    decode (c :: rest) = String.utf8EncodeChar c ++ decode rest := by
  rw [decode.eq_def]
  split <;> simp_all

/-- A text without escapes is what its bytes are. -/
theorem decode_of_notMem {s : List Char} (h : '%' ∉ s) : decode s = utf8 s := by
  induction s with
  | nil => rfl
  | cons c s ih =>
      rw [List.mem_cons, not_or] at h
      rw [decode_cons_of_ne (Ne.symm h.1), ih h.2]
      rfl

variable {set : Char → Bool}

theorem decode_encodeChar (hpercent : set '%' = true) (c : Char) (rest : List Char) :
    decode (encodeChar set c ++ rest) = String.utf8EncodeChar c ++ decode rest := by
  unfold encodeChar
  split
  · next hplain =>
      have hne : c ≠ '%' := by
        rintro rfl
        simp [hpercent] at hplain
      exact decode_cons_of_ne hne rest
  · exact decode_escapeBytes _ rest

/-- Decoding an encoded text gives back its bytes. -/
theorem decode_encode (hpercent : set '%' = true) (s : List Char) :
    decode (encode set s) = utf8 s := by
  induction s with
  | nil => rfl
  | cons c s ih =>
      have hcons : encode set (c :: s) = encodeChar set c ++ encode set s := List.flatMap_cons
      rw [hcons, decode_encodeChar hpercent, ih]
      rfl

theorem encode_injective (hpercent : set '%' = true) {s t : List Char}
    (h : encode set s = encode set t) : s = t := by
  apply utf8_injective
  rw [← decode_encode hpercent s, h, decode_encode hpercent]

/-! ## Characters of an encoded text -/

theorem upperHex_mem {n : Nat} (h : n < 16) : Text.upperHex n ∈ "0123456789ABCDEF".toList := by
  have all : ∀ m : Fin 16, Text.upperHex m ∈ "0123456789ABCDEF".toList := by decide
  exact all ⟨n, h⟩

theorem digit_of_mem_escapeChar {c d : Char} (h : d ∈ escapeChar c) :
    d = '%' ∨ ∃ n < 16, d = Text.upperHex n := by
  obtain ⟨b, -, hd⟩ := List.mem_flatMap.mp h
  have hbyte : b.toNat < 256 := b.toNat_lt
  simp only [escapeByte, List.mem_cons, List.not_mem_nil, or_false] at hd
  rcases hd with rfl | rfl | rfl
  · exact .inl rfl
  · exact .inr ⟨b.toNat / 16, by omega, rfl⟩
  · exact .inr ⟨b.toNat % 16, by omega, rfl⟩

theorem mem_of_mem_escapeChar {c d : Char} (h : d ∈ escapeChar c) :
    d = '%' ∨ d ∈ "0123456789ABCDEF".toList := by
  rcases digit_of_mem_escapeChar h with hpercent | ⟨n, hn, rfl⟩
  · exact .inl hpercent
  · exact .inr (upperHex_mem hn)

/-- An encoded text holds characters of the text that stand for themselves, and escapes. -/
theorem mem_of_mem_encode {c : Char} {s : List Char} (h : c ∈ encode set s) :
    (c ∈ s ∧ set c = false) ∨ (c = '%' ∨ c ∈ "0123456789ABCDEF".toList) := by
  obtain ⟨d, hd, hc⟩ := List.mem_flatMap.mp h
  unfold encodeChar at hc
  split at hc
  · next hplain =>
      have hself : isAscii d = true ∧ set d = false := by simpa using hplain
      rw [List.mem_singleton.mp hc]
      exact .inl ⟨hd, hself.2⟩
  · exact .inr (mem_of_mem_escapeChar hc)

theorem notMem_encode {c : Char} (hset : set c = true)
    (hescape : ¬(c = '%' ∨ c ∈ "0123456789ABCDEF".toList)) (s : List Char) :
    c ∉ encode set s := by
  intro hmem
  rcases mem_of_mem_encode hmem with ⟨-, hplain⟩ | hescaped
  · rw [hset] at hplain
    cases hplain
  · exact hescape hescaped

theorem notMem_encode_of_notMem {c : Char} {s : List Char} (h : c ∉ s)
    (hescape : ¬(c = '%' ∨ c ∈ "0123456789ABCDEF".toList)) : c ∉ encode set s := by
  intro hmem
  rcases mem_of_mem_encode hmem with ⟨hs, -⟩ | hescaped
  · exact h hs
  · exact hescape hescaped

theorem segmentSet_percent : segmentSet '%' = true := rfl

theorem slash_notMem_encode (s : List Char) : '/' ∉ encode segmentSet s :=
  notMem_encode rfl (by decide) s

/-! ## Dot segments -/

/-- Only the capital letters of ASCII are changed to small ones. -/
theorem toLower_cases (c : Char) :
    c.toLower = c ∨ ∃ m : Fin 26, c = Char.ofNat ('A'.toNat + m) := by
  unfold Char.toLower
  split
  · next hcapital =>
      have hlower : 'A'.toNat ≤ c.toNat := UInt32.le_iff_toNat_le.mp hcapital.1
      have hupper : c.toNat ≤ 'Z'.toNat := UInt32.le_iff_toNat_le.mp hcapital.2
      have hletters : 'Z'.toNat < 'A'.toNat + 26 := by decide
      refine .inr ⟨⟨c.toNat - 'A'.toNat, by omega⟩, ?_⟩
      rw [Nat.add_sub_cancel' hlower, Char.ofNat_toNat]
  · exact .inl rfl

theorem eq_of_toLower_eq {c d : Char} (hd : ¬('a' ≤ d ∧ d ≤ 'z')) (h : c.toLower = d) :
    c = d := by
  rcases toLower_cases c with hsame | ⟨m, rfl⟩
  · rw [← hsame, h]
  · have hletter : ∀ m : Fin 26, 'a' ≤ (Char.ofNat ('A'.toNat + m)).toLower ∧
        (Char.ofNat ('A'.toNat + m)).toLower ≤ 'z' := by decide
    exact absurd (h ▸ hletter m) hd

theorem hexValue?_toLower (c : Char) : Text.hexValue? c.toLower = Text.hexValue? c := by
  rcases toLower_cases c with hsame | ⟨m, rfl⟩
  · rw [hsame]
  · have hletter : ∀ m : Fin 26, Text.hexValue? (Char.ofNat ('A'.toNat + m)).toLower =
        Text.hexValue? (Char.ofNat ('A'.toNat + m)) := by decide
    exact hletter m

/-- A dot, plain or escaped. -/
def SpellsDot (s : List Char) : Prop :=
  s.map Char.toLower = ['.'] ∨ s.map Char.toLower = ['%', '2', 'e']

theorem decode_of_spellsDot {s : List Char} (h : SpellsDot s) (rest : List Char) :
    decode (s ++ rest) = 0x2e :: decode rest := by
  rcases h with hplain | hescaped
  · obtain ⟨a, t, rfl, ha, ht⟩ := List.map_eq_cons_iff.mp hplain
    rw [List.map_eq_nil_iff.mp ht, eq_of_toLower_eq (by decide) ha]
    exact decode_cons_of_ne (by decide) rest
  · obtain ⟨a, t, rfl, ha, ht⟩ := List.map_eq_cons_iff.mp hescaped
    obtain ⟨b, u, rfl, hb, hu⟩ := List.map_eq_cons_iff.mp ht
    obtain ⟨c, v, rfl, hc, hv⟩ := List.map_eq_cons_iff.mp hu
    have hhigh : Text.hexValue? b = some 2 := by
      rw [← hexValue?_toLower, hb]
      rfl
    have hlow : Text.hexValue? c = some 14 := by
      rw [← hexValue?_toLower, hc]
      rfl
    rw [List.map_eq_nil_iff.mp hv, eq_of_toLower_eq (by decide) ha]
    simp only [List.cons_append, List.nil_append, decode, hhigh, hlow]
    rfl

theorem spellsDot_of_isSingleDot {s : List Char} (h : isSingleDot s = true) : SpellsDot s := by
  simpa [isSingleDot, SpellsDot] using h

theorem spellsDots_of_isDoubleDot {s : List Char} (h : isDoubleDot s = true) :
    ∃ first second, s = first ++ second ∧ SpellsDot first ∧ SpellsDot second := by
  have hforms : s.map Char.toLower = ['.'] ++ ['.'] ∨
      s.map Char.toLower = ['%', '2', 'e'] ++ ['%', '2', 'e'] ∨
      s.map Char.toLower = ['.'] ++ ['%', '2', 'e'] ∨
      s.map Char.toLower = ['%', '2', 'e'] ++ ['.'] := by
    simpa [isDoubleDot] using h
  rcases hforms with hform | hform | hform | hform
  all_goals
    obtain ⟨first, second, hsplit, hfirst, hsecond⟩ := List.map_eq_append_iff.mp hform
    refine ⟨first, second, hsplit, ?_, ?_⟩ <;> simp [SpellsDot, hfirst, hsecond]

/-- An encoded text is the dot segment for the place above only if the text is. -/
theorem isDoubleDot_encode_iff {s : List Char} :
    isDoubleDot (encode segmentSet s) = true ↔ s = ['.', '.'] := by
  constructor
  · intro h
    obtain ⟨first, second, hsplit, hfirst, hsecond⟩ := spellsDots_of_isDoubleDot h
    apply utf8_injective
    rw [← decode_encode segmentSet_percent s, hsplit, decode_of_spellsDot hfirst,
      ← List.append_nil second, decode_of_spellsDot hsecond]
    rfl
  · rintro rfl
    rfl

/-- An encoded text is the dot segment for the place itself only if the text is. -/
theorem isSingleDot_encode_iff {s : List Char} :
    isSingleDot (encode segmentSet s) = true ↔ s = ['.'] := by
  constructor
  · intro h
    apply utf8_injective
    rw [← decode_encode segmentSet_percent s, ← List.append_nil (encode segmentSet s),
      decode_of_spellsDot (spellsDot_of_isSingleDot h)]
    rfl
  · rintro rfl
    rfl

end DataCatalog.Url
