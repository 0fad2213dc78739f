import DataCatalog.Proofs.PercentEncoding
import DataCatalog.Proofs.Splitting

/-!
# Hosts are read as they are written

A host is written in one form: a name in lower case without escapes, four bytes in decimal digits,
or eight groups of base sixteen with the first longest run of zeros left out.  Each of these forms
is read as the host that it is.  So it is enough to know that reading a host gives one that has such
a form: the numbers are in their ranges, and a name has only characters that stand for themselves.
Whether a name in ASCII is its own form is a matter of the conversion that gave it.
-/

namespace DataCatalog.Url

/-! ## Digits -/

theorem hexValue?_digitChar {n : Nat} (h : n < 16) : Text.hexValue? n.digitChar = some n := by
  have all : ∀ m : Fin 16, Text.hexValue? (Nat.digitChar m) = some m.val := by decide
  exact all ⟨n, h⟩

theorem hexValue?_lt {c : Char} {n : Nat} (h : Text.hexValue? c = some n) : n < 16 := by
  have hrange {low high : Char} (hc : low ≤ c ∧ c ≤ high) :
      low.toNat ≤ c.toNat ∧ c.toNat ≤ high.toNat :=
    ⟨UInt32.le_iff_toNat_le.mp hc.1, UInt32.le_iff_toNat_le.mp hc.2⟩
  unfold Text.hexValue? at h
  split at h
  · next hdigit =>
      simp only [Char.isDigit, Bool.and_eq_true, decide_eq_true_eq] at hdigit
      have hrange' := hrange hdigit
      have hnine : '9'.toNat = '0'.toNat + 9 := by decide
      simp only [Option.some.injEq] at h
      omega
  · split at h
    · next hletter =>
        have hrange' := hrange hletter
        have hf : 'f'.toNat = 'a'.toNat + 5 := by decide
        simp only [Option.some.injEq] at h
        omega
    · split at h
      · next hletter =>
          have hrange' := hrange hletter
          have hf : 'F'.toNat = 'A'.toNat + 5 := by decide
          simp only [Option.some.injEq] at h
          omega
      · cases h

theorem exists_digit_of_mem_toDigits {base n : Nat} {c : Char} (hbase : 1 < base)
    (h : c ∈ Nat.toDigits base n) : ∃ d < base, c = d.digitChar := by
  induction n using Nat.strongRecOn with
  | _ n ih =>
      by_cases hlt : n < base
      · rw [Nat.toDigits_of_lt_base hlt] at h
        exact ⟨n, hlt, List.mem_singleton.mp h⟩
      · rw [Nat.toDigits_of_base_le hbase (by omega)] at h
        rcases List.mem_append.mp h with hfront | hlast
        · exact ih _ (Nat.div_lt_self (by omega) hbase) hfront
        · exact ⟨n % base, Nat.mod_lt _ (by omega), List.mem_singleton.mp hlast⟩

theorem digitsValue_concat (base : Nat) (digits : List Char) (c : Char) :
    digitsValue base (digits ++ [c]) =
      base * digitsValue base digits + (Text.hexValue? c).getD 0 := by
  simp [digitsValue]

/-- Reading the digits of a number gives back the number. -/
theorem digitsValue_toDigits {base : Nat} (hbase : 1 < base) (hhex : base ≤ 16) (n : Nat) :
    digitsValue base (Nat.toDigits base n) = n := by
  induction n using Nat.strongRecOn with
  | _ n ih =>
      by_cases hlt : n < base
      · rw [Nat.toDigits_of_lt_base hlt, ← List.nil_append [n.digitChar], digitsValue_concat,
          hexValue?_digitChar (by omega)]
        simp [digitsValue]
      · have hmod : n % base < base := Nat.mod_lt _ (by omega)
        rw [Nat.toDigits_of_base_le hbase (by omega), digitsValue_concat,
          ih _ (Nat.div_lt_self (by omega) hbase), hexValue?_digitChar (by omega), Option.getD_some,
          Nat.div_add_mod]

theorem digitsValue_lt (s : List Char) : digitsValue 16 s < 16 ^ s.length := by
  induction s using List.reverseRecOn with
  | nil => simp [digitsValue]
  | append_singleton rest c ih =>
      have hdigit : (Text.hexValue? c).getD 0 < 16 := by
        cases hc : Text.hexValue? c with
        | none => simp
        | some n => exact hexValue?_lt hc
      rw [digitsValue_concat, List.length_append, List.length_singleton, pow_succ]
      omega

/-! ## Addresses of eight groups -/

/-- Eight groups of sixteen bits each. -/
def IsIpv6 (groups : List Nat) : Prop :=
  groups.length = 8 ∧ ∀ group ∈ groups, group < 0x10000

theorem hexGroup?_lt {s : List Char} {group : Nat} (h : hexGroup? s = some group) :
    group < 0x10000 := by
  unfold hexGroup? at h
  split at h
  · next hdigits =>
      cases h
      calc digitsValue 16 s
          _ < 16 ^ s.length := digitsValue_lt s
          _ ≤ 16 ^ 4 := Nat.pow_le_pow_right (by decide) hdigits.2.1
  · cases h

theorem decimalByte?_le {s : List Char} {byte : Nat} (h : decimalByte? s = some byte) :
    byte ≤ 255 := by
  unfold decimalByte? at h
  dsimp only at h
  split at h
  · next hbyte =>
      cases h
      exact hbyte.2.2.1
  · cases h

theorem le_of_mapM_decimalByte? {parts : List (List Char)} {bytes : List Nat}
    (h : parts.mapM decimalByte? = some bytes) : ∀ byte ∈ bytes, byte ≤ 255 := by
  induction parts generalizing bytes with
  | nil =>
      cases h
      simp
  | cons part rest ih =>
      rw [List.mapM_cons] at h
      obtain ⟨byte, hbyte, hrest⟩ := Option.bind_eq_some_iff.mp h
      obtain ⟨more, hmore, hbytes⟩ := Option.bind_eq_some_iff.mp hrest
      cases hbytes
      exact List.forall_mem_cons.mpr ⟨decimalByte?_le hbyte, ih hmore⟩

theorem hexGroups?_lt {quad : Bool} {parts : List (List Char)} {groups : List Nat}
    (h : hexGroups? quad parts = some groups) : ∀ group ∈ groups, group < 0x10000 := by
  fun_induction hexGroups? quad parts generalizing groups with
  | case1 =>
      cases h
      simp
  | case2 last group hgroup =>
      cases h
      exact List.forall_mem_singleton.mpr (hexGroup?_lt hgroup)
  | case3 last hnone hquad a b c d hbytes =>
      cases h
      have hle := le_of_mapM_decimalByte? hbytes
      simp only [List.forall_mem_cons, List.not_mem_nil, false_implies, implies_true, and_true]
        at hle ⊢
      omega
  | case4 => cases h
  | case5 => cases h
  | case6 part rest hrest ih =>
      obtain ⟨first, hfirst, hmap⟩ := Option.bind_eq_some_iff.mp h
      obtain ⟨more, hmore, hgroups⟩ := Option.bind_eq_some_iff.mp hmap
      cases hgroups
      exact List.forall_mem_cons.mpr ⟨hexGroup?_lt hfirst, ih hmore⟩

theorem groups?_lt {quad : Bool} {s : List Char} {groups : List Nat}
    (h : groups? quad s = some groups) : ∀ group ∈ groups, group < 0x10000 := by
  unfold groups? at h
  split at h
  · cases h
    simp
  · exact hexGroups?_lt h

theorem isIpv6_of_ipv6? {s : List Char} {groups : List Nat} (h : ipv6? s = some groups) :
    IsIpv6 groups := by
  unfold ipv6? at h
  split at h
  · obtain ⟨left, hleft, hjoin⟩ := Option.bind_eq_some_iff.mp h
    obtain ⟨right, hright, hgroups⟩ := Option.bind_eq_some_iff.mp hjoin
    split at hgroups
    · next hlength =>
        cases hgroups
        constructor
        · simp only [List.length_append, List.length_replicate]
          omega
        · simp only [List.forall_mem_append]
          refine ⟨⟨groups?_lt hleft, fun group hgroup => ?_⟩, groups?_lt hright⟩
          rw [(List.mem_replicate.mp hgroup).2]
          decide
    · cases hgroups
  · obtain ⟨all, hall, hgroups⟩ := Option.bind_eq_some_iff.mp h
    split at hgroups
    · next hlength =>
        cases hgroups
        exact ⟨hlength, groups?_lt hall⟩
    · cases hgroups

/-- Digits are characters of names, of ASCII and in lower case. -/
theorem plain_of_mem_toDigits {base n : Nat} {c : Char} (hbase : 1 < base) (hhex : base ≤ 16)
    (h : c ∈ Nat.toDigits base n) :
    isForbiddenInDomain c = false ∧ isAscii c = true ∧ c.toLower = c := by
  obtain ⟨d, hd, rfl⟩ := exists_digit_of_mem_toDigits hbase h
  have all : ∀ m : Fin 16, isForbiddenInDomain (Nat.digitChar m) = false ∧
      isAscii (Nat.digitChar m) = true ∧ (Nat.digitChar m).toLower = Nat.digitChar m := by decide
  exact all ⟨d, by omega⟩

theorem colon_notMem_toDigits (n : Nat) : ':' ∉ Nat.toDigits 16 n := by
  intro h
  cases (plain_of_mem_toDigits (by decide) (by decide) h).1

theorem hexGroup?_toDigits {group : Nat} (h : group < 0x10000) :
    hexGroup? (Nat.toDigits 16 group) = some group := by
  have hlength : (Nat.toDigits 16 group).length ≤ 4 :=
    (Nat.length_toDigits_le_iff (by decide) (by decide)).mpr h
  have hdigits : (Nat.toDigits 16 group).all (fun c => (Text.hexValue? c).isSome) = true := by
    rw [List.all_eq_true]
    intro c hc
    obtain ⟨d, hd, rfl⟩ := exists_digit_of_mem_toDigits (by decide) hc
    rw [hexValue?_digitChar hd]
    rfl
  rw [hexGroup?, if_pos ⟨Nat.toDigits_ne_nil, hlength, hdigits⟩,
    digitsValue_toDigits (by decide) (by decide)]

theorem hexGroups?_toDigits (quad : Bool) {groups : List Nat}
    (h : ∀ group ∈ groups, group < 0x10000) :
    hexGroups? quad (groups.map (Nat.toDigits 16)) = some groups := by
  induction groups with
  | nil => rfl
  | cons first rest ih =>
      obtain ⟨hfirst, hrest⟩ := List.forall_mem_cons.mp h
      cases rest with
      | nil => simp [hexGroups?, hexGroup?_toDigits hfirst]
      | cons second more =>
          have hmore := ih hrest
          rw [List.map_cons] at hmore
          simp [hexGroups?, hexGroup?_toDigits hfirst, hmore]

theorem writeGroups_cons_cons (first second : Nat) (rest : List Nat) :
    writeGroups (first :: second :: rest) =
      Nat.toDigits 16 first ++ ':' :: writeGroups (second :: rest) := by
  simp [writeGroups, List.intercalate]

theorem writeGroups_ne_nil {groups : List Nat} (h : groups ≠ []) : writeGroups groups ≠ [] := by
  cases groups with
  | nil => exact absurd rfl h
  | cons first rest =>
      cases rest with
      | nil => simp [writeGroups, List.intercalate, Nat.toDigits_ne_nil]
      | cons second more => simp [writeGroups_cons_cons]

/-- Written groups are read back. -/
theorem groups?_writeGroups (quad : Bool) {groups : List Nat}
    (h : ∀ group ∈ groups, group < 0x10000) : groups? quad (writeGroups groups) = some groups := by
  by_cases hnil : groups = []
  · subst hnil
    rfl
  have hsplit : splitOn (· == ':') (writeGroups groups) = groups.map (Nat.toDigits 16) := by
    refine splitOn_intercalate ?_ (by simpa using hnil)
    exact List.forall_mem_map.mpr fun group _ => colon_notMem_toDigits group
  rw [groups?, if_neg (writeGroups_ne_nil hnil), hsplit, hexGroups?_toDigits quad h]

theorem splitGap_cons_of_ne {c : Char} (h : c ≠ ':') (rest : List Char) :
    splitGap (c :: rest) = (splitGap rest).map fun (before, after) => (c :: before, after) := by
  rw [splitGap]
  exact fun _ hcolon => absurd hcolon h

theorem splitGap_colon_of_ne {rest : List Char} (h : rest.head? ≠ some ':') :
    splitGap (':' :: rest) = (splitGap rest).map fun (before, after) => (':' :: before, after) := by
  rw [splitGap]
  rintro more - rfl
  exact h rfl

theorem splitGap_append {s : List Char} (h : ':' ∉ s) (rest : List Char) :
    splitGap (s ++ rest) = (splitGap rest).map fun (before, after) => (s ++ before, after) := by
  induction s with
  | nil => simp
  | cons c s ih =>
      rw [List.mem_cons, not_or] at h
      rw [List.cons_append, splitGap_cons_of_ne (Ne.symm h.1), ih h.2, Option.map_map]
      rfl

theorem head_writeGroups (first : Nat) (rest : List Nat) (tail : List Char) :
    (writeGroups (first :: rest) ++ tail).head? ≠ some ':' := by
  have hdigits : ∃ more, writeGroups (first :: rest) = Nat.toDigits 16 first ++ more := by
    cases rest with
    | nil => exact ⟨[], by simp [writeGroups, List.intercalate]⟩
    | cons second rest => exact ⟨_, writeGroups_cons_cons first second rest⟩
  obtain ⟨more, hmore⟩ := hdigits
  obtain ⟨c, digits, hc⟩ := List.exists_cons_of_ne_nil (Nat.toDigits_ne_nil (n := first) (b := 16))
  have hcolon := colon_notMem_toDigits first
  rw [hc, List.mem_cons, not_or] at hcolon
  rw [hmore, hc]
  simpa using Ne.symm hcolon.1

/-- There is no gap in written groups: the first one is behind them. -/
theorem splitGap_writeGroups (groups : List Nat) (tail : List Char) :
    splitGap (writeGroups groups ++ tail) =
      (splitGap tail).map fun (before, after) => (writeGroups groups ++ before, after) := by
  induction groups with
  | nil => simp [writeGroups, List.intercalate]
  | cons first rest ih =>
      cases rest with
      | nil =>
          have hsingle : writeGroups [first] = Nat.toDigits 16 first := by
            simp [writeGroups, List.intercalate]
          rw [hsingle, splitGap_append (colon_notMem_toDigits first)]
      | cons second more =>
          rw [writeGroups_cons_cons, List.append_assoc, List.cons_append,
            splitGap_append (colon_notMem_toDigits first),
            splitGap_colon_of_ne (head_writeGroups second more tail), ih, Option.map_map,
            Option.map_map]
          congr 1
          funext p
          simp

/-- There are zeros at this place. -/
def IsGap (groups : List Nat) (gap : Nat × Nat) : Prop :=
  groups = groups.take gap.1 ++ List.replicate gap.2 0 ++ groups.drop (gap.1 + gap.2)

theorem isGap_zeros (groups : List Nat) (start : Nat) :
    IsGap groups (start, ((groups.drop start).takeWhile (· == 0)).length) := by
  have hzeros : (groups.drop start).takeWhile (· == 0) =
      List.replicate ((groups.drop start).takeWhile (· == 0)).length 0 := by
    rw [List.eq_replicate_iff]
    exact ⟨rfl, fun group hgroup => by simpa using List.mem_takeWhile_imp hgroup⟩
  have hrest : groups.drop (start + ((groups.drop start).takeWhile (· == 0)).length) =
      (groups.drop start).dropWhile (· == 0) := by
    have hsplit (kept rest : List Nat) : (kept ++ rest).drop kept.length = rest := List.drop_left
    have hzero := hsplit ((groups.drop start).takeWhile (· == 0))
      ((groups.drop start).dropWhile (· == 0))
    rwa [List.takeWhile_append_dropWhile, List.drop_drop] at hzero
  rw [IsGap, hrest, ← hzeros, List.append_assoc, List.takeWhile_append_dropWhile,
    List.take_append_drop]

theorem isGap_longestGap (groups : List Nat) : IsGap groups (longestGap groups) := by
  have hstep : ∀ (starts : List Nat) (best : Nat × Nat), IsGap groups best →
      IsGap groups (starts.foldl
        (fun best start =>
          let size := ((groups.drop start).takeWhile (· == 0)).length
          if best.2 < size then (start, size) else best) best) := by
    intro starts
    induction starts with
    | nil => exact fun best h => h
    | cons start rest ih =>
        intro best h
        apply ih
        dsimp only
        split
        · exact isGap_zeros groups start
        · exact h
  exact hstep _ _ (by simp [IsGap])

theorem ipv6?_writeIpv6 {groups : List Nat} (h : IsIpv6 groups) :
    ipv6? (writeIpv6 groups) = some groups := by
  obtain ⟨hlength, hlt⟩ := h
  rcases hgap : longestGap groups with ⟨start, size⟩
  have hzeros : IsGap groups (start, size) := hgap ▸ isGap_longestGap groups
  rw [writeIpv6, hgap]
  dsimp only
  split
  · have hnone : splitGap (writeGroups groups) = none := by
      have hend := splitGap_writeGroups groups []
      rwa [List.append_nil] at hend
    rw [ipv6?, hnone]
    simp [groups?_writeGroups true hlt, hlength]
  · next hsize =>
      have hsplit := splitGap_writeGroups (groups.take start)
        (':' :: ':' :: writeGroups (groups.drop (start + size)))
      have hleft : groups? false (writeGroups (groups.take start)) = some (groups.take start) :=
        groups?_writeGroups false fun group hgroup => hlt group (List.mem_of_mem_take hgroup)
      have hright : groups? true (writeGroups (groups.drop (start + size))) =
          some (groups.drop (start + size)) :=
        groups?_writeGroups true fun group hgroup => hlt group (List.mem_of_mem_drop hgroup)
      have hcount :
          (groups.take start).length + size + (groups.drop (start + size)).length = 8 := by
        rw [← hlength]
        conv_rhs => rw [hzeros]
        simp [Nat.add_assoc]
      have hsize' :
          8 - (groups.take start).length - (groups.drop (start + size)).length = size := by
        omega
      rw [ipv6?, hsplit]
      simp only [splitGap, Option.map_some, List.append_nil]
      rw [hleft, Option.bind_eq_bind, Option.bind_some, hright, Option.bind_some,
        if_pos (by omega), hsize', ← hzeros]

/-! ## Addresses of four bytes -/

theorem foldl_bytes_lt {bytes : List Nat} (h : ∀ byte ∈ bytes, byte ≤ 255) :
    bytes.foldl (fun value n => 256 * value + n) 0 < 256 ^ bytes.length := by
  induction bytes using List.reverseRecOn with
  | nil => simp
  | append_singleton rest byte ih =>
      rw [List.forall_mem_append, List.forall_mem_singleton] at h
      have hrest := ih h.1
      rw [List.foldl_append, List.length_append, List.length_singleton, pow_succ]
      simp only [List.foldl_cons, List.foldl_nil]
      omega

theorem ipv4?_lt {name : List Char} {address : Nat} (h : ipv4? name = some address) :
    address < 256 ^ 4 := by
  obtain ⟨numbers, -, hnumbers⟩ := Option.bind_eq_some_iff.mp h
  obtain ⟨last, hlast, haddress⟩ := Option.bind_eq_some_iff.mp hnumbers
  dsimp only at haddress
  split at haddress
  · next hbytes =>
      cases haddress
      obtain ⟨hlength, hleading, hlow⟩ := hbytes
      have hbytes : ∀ byte ∈ numbers.dropLast, byte ≤ 255 := by simpa using hleading
      have hhigh := foldl_bytes_lt hbytes
      have hcount : numbers.dropLast.length ≤ 4 := by
        rw [List.length_dropLast]
        omega
      have hpow : (256 ^ 4 : Nat) =
          256 ^ numbers.dropLast.length * 256 ^ (4 - numbers.dropLast.length) := by
        rw [← pow_add, Nat.add_sub_cancel' hcount]
      calc _ < numbers.dropLast.foldl (fun value n => 256 * value + n) 0 *
                256 ^ (4 - numbers.dropLast.length) + 256 ^ (4 - numbers.dropLast.length) :=
            Nat.add_lt_add_left hlow _
        _ = (numbers.dropLast.foldl (fun value n => 256 * value + n) 0 + 1) *
                256 ^ (4 - numbers.dropLast.length) := (Nat.succ_mul _ _).symm
        _ ≤ _ := hpow ▸ Nat.mul_le_mul_right _ hhigh
  · cases haddress

/-- The bytes of an address, the highest one first. -/
def ipv4Bytes (address : Nat) : List Nat :=
  [address / 0x1000000, address / 0x10000 % 256, address / 256 % 256, address % 256]

theorem ipv4Bytes_lt {address : Nat} (h : address < 256 ^ 4) :
    ∀ byte ∈ ipv4Bytes address, byte < 256 := by
  simp only [ipv4Bytes, List.forall_mem_cons, List.not_mem_nil, false_implies, implies_true,
    and_true]
  omega

theorem ipv4Number?_toDigits {byte : Nat} (h : byte < 256) :
    ipv4Number? (Nat.toDigits 10 byte) = some byte := by
  have all : ∀ b : Fin 256, ipv4Number? (Nat.toDigits 10 b) = some b.val := by decide +kernel
  exact all ⟨byte, h⟩

theorem dot_notMem_toDigits (n : Nat) : '.' ∉ Nat.toDigits 10 n := by
  intro h
  have hdigit := Nat.isDigit_of_mem_toDigits (by decide) (by decide) h
  cases hdigit

theorem splitOn_writeIpv4 (address : Nat) :
    splitOn (· == '.') (writeIpv4 address) = (ipv4Bytes address).map (Nat.toDigits 10) := by
  refine splitOn_intercalate ?_ (by simp)
  exact List.forall_mem_map.mpr fun byte _ => dot_notMem_toDigits byte

theorem labels_writeIpv4 (address : Nat) :
    labels (writeIpv4 address) = (ipv4Bytes address).map (Nat.toDigits 10) := by
  rw [labels, splitOn_writeIpv4]
  exact if_neg (by simp [Nat.toDigits_ne_nil])

theorem endsInNumber_writeIpv4 (address : Nat) : endsInNumber (writeIpv4 address) = true := by
  have hlast : ((ipv4Bytes address).map (Nat.toDigits 10)).getLast? =
      some (Nat.toDigits 10 (address % 256)) := rfl
  have hdigits : (Nat.toDigits 10 (address % 256)).all Char.isDigit = true :=
    List.all_eq_true.mpr fun c => Nat.isDigit_of_mem_toDigits (by decide) (by decide)
  simp [endsInNumber, labels_writeIpv4, hlast, hdigits, Nat.toDigits_ne_nil]

theorem ipv4?_writeIpv4 {address : Nat} (h : address < 256 ^ 4) :
    ipv4? (writeIpv4 address) = some address := by
  have hlt := ipv4Bytes_lt h
  have hnumbers : ((ipv4Bytes address).map (Nat.toDigits 10)).mapM ipv4Number? =
      some (ipv4Bytes address) := by
    have hbytes := fun byte hbyte => ipv4Number?_toDigits (hlt byte hbyte)
    simp only [ipv4Bytes, List.forall_mem_cons] at hbytes
    simp [ipv4Bytes, hbytes]
  have hleading : (ipv4Bytes address).dropLast.all (· ≤ 255) = true := by
    rw [List.all_eq_true]
    intro byte hbyte
    have hbound := hlt byte (List.mem_of_mem_dropLast hbyte)
    exact decide_eq_true (by omega)
  have hlast : (ipv4Bytes address).getLast? = some (address % 256) := rfl
  have hlow : address % 256 < Nat.pow 256 (4 - (ipv4Bytes address).dropLast.length) :=
    Nat.mod_lt address (by decide)
  have hvalue : (ipv4Bytes address).dropLast.foldl (fun value n => 256 * value + n) 0 *
      Nat.pow 256 (4 - (ipv4Bytes address).dropLast.length) + address % 256 = address := by
    simp only [ipv4Bytes, List.dropLast, List.foldl, List.length]
    rw [Nat.pow_eq]
    omega
  rw [ipv4?, labels_writeIpv4, hnumbers, Option.bind_eq_bind, Option.bind_some, hlast,
    Option.bind_eq_bind, Option.bind_some]
  dsimp only
  rw [if_pos ⟨by simp [ipv4Bytes], hleading, hlow⟩, hvalue]

/-! ## Forms of names -/

/-- What is documented of a conversion of names to ASCII, and relied on: its results are in lower
case, and each of them is its own form. -/
structure ToAscii.Lawful (toAscii : ToAscii) : Prop where
  lower {name form : String} (h : toAscii name = some form) :
    form.toList.map Char.toLower = form.toList
  fixed {name form : String} (h : toAscii name = some form) : toAscii form = some form

theorem ToAscii.known_lawful {forms : List (String × String)}
    (hforms : ∀ form ∈ forms.map Prod.snd, form.toList.map Char.toLower = form.toList) :
    (known forms).Lawful := by
  have hmem {name form : String} (h : known forms name = some form) :
      form ∈ forms.map Prod.snd := by
    unfold known at h
    split at h
    · next hknown =>
        cases h
        exact hknown
    · obtain ⟨front, rest, rfl, -⟩ := List.lookup_eq_some_iff.mp h
      simp
  exact ⟨fun h => hforms _ (hmem h), fun h => if_pos (hmem h)⟩

variable {toAscii : ToAscii}

theorem lower_of_asciiForm? (laws : toAscii.Lawful) {name : String} {form : List Char}
    (h : asciiForm? toAscii name = some form) : form.map Char.toLower = form := by
  unfold asciiForm? at h
  dsimp only at h
  split at h
  · cases h
    simp
  · obtain ⟨written, hwritten, rfl⟩ := Option.map_eq_some_iff.mp h
    exact laws.lower hwritten

theorem asciiForm?_of_lower {s : List Char} (h : s.map Char.toLower = s) :
    asciiForm? toAscii (String.ofList s) =
      if isPlainName s then some s else (toAscii (String.ofList s)).map String.toList := by
  rw [asciiForm?, String.toList_ofList, h]

/-- The form of a name is its own form. -/
theorem asciiForm?_of_asciiForm? (laws : toAscii.Lawful) {name : String} {form : List Char}
    (h : asciiForm? toAscii name = some form) :
    asciiForm? toAscii (String.ofList form) = some form := by
  rw [asciiForm?_of_lower (lower_of_asciiForm? laws h)]
  split
  · rfl
  · next hplain =>
      -- A form with labels that stand for others comes from the conversion, not from lower case.
      unfold asciiForm? at h
      dsimp only at h
      split at h
      · next hplain' =>
          cases h
          exact absurd hplain' hplain
      · obtain ⟨written, hwritten, rfl⟩ := Option.map_eq_some_iff.mp h
        rw [String.ofList_toList, laws.fixed hwritten, Option.map_some]

/-! ## Hosts -/

/-- A name without the characters that no name has is not changed if it is its own form. -/
theorem parseDomain_of_forall {s : List Char} (h : ∀ c ∈ s, isForbiddenInDomain c = false)
    (hform : asciiForm? toAscii (String.ofList s) = some s) :
    parseDomain toAscii s =
      if s = [] then .error .emptyHost
      else if endsInNumber s then
        match ipv4? s with
        | some address => .ok (writeIpv4 address)
        | none => .error .invalidIpv4
      else .ok s := by
  have hpercent : '%' ∉ s := fun hmem => absurd (h '%' hmem) (by decide)
  have hname : (text? (decode s)).bind (asciiForm? toAscii) = some s := by
    rw [decode_of_notMem hpercent, text?_utf8, Option.bind_some, hform]
  have hallowed : s.any isForbiddenInDomain = false :=
    List.any_eq_false.mpr fun c hc => by simp [h c hc]
  rw [parseDomain, hname]
  exact if_neg (by simp [hallowed])

theorem mem_of_mem_intercalate {mark c : Char} {parts : List (List Char)}
    (h : c ∈ [mark].intercalate parts) : c = mark ∨ ∃ part ∈ parts, c ∈ part := by
  induction parts with
  | nil => simp [List.intercalate] at h
  | cons first rest ih =>
      cases rest with
      | nil => exact .inr ⟨first, List.mem_cons_self, by simpa [List.intercalate] using h⟩
      | cons second more =>
          have hsplit : [mark].intercalate (first :: second :: more) =
              first ++ mark :: [mark].intercalate (second :: more) := by
            simp [List.intercalate]
          rw [hsplit, List.mem_append, List.mem_cons] at h
          rcases h with hfirst | hmark | hrest
          · exact .inr ⟨first, List.mem_cons_self, hfirst⟩
          · exact .inl hmark
          · exact (ih hrest).imp id fun ⟨part, hpart, hc⟩ =>
              ⟨part, List.mem_cons_of_mem _ hpart, hc⟩

theorem plain_of_mem_writeIpv4 {address : Nat} {c : Char} (h : c ∈ writeIpv4 address) :
    isForbiddenInDomain c = false ∧ isAscii c = true ∧ c.toLower = c := by
  rcases mem_of_mem_intercalate h with rfl | ⟨part, hpart, hc⟩
  · decide
  · obtain ⟨byte, -, rfl⟩ := List.mem_map.mp hpart
    exact plain_of_mem_toDigits (by decide) (by decide) hc

theorem isPlainName_writeIpv4 (address : Nat) : isPlainName (writeIpv4 address) = true := by
  have hascii : (writeIpv4 address).all isAscii = true :=
    List.all_eq_true.mpr fun c hc => (plain_of_mem_writeIpv4 hc).2.1
  have hlabels : ∀ label ∈ splitOn (· == '.') (writeIpv4 address),
      ¬ "xn--".toList.isPrefixOf label = true := by
    rw [splitOn_writeIpv4, List.forall_mem_map]
    intro byte _ hmark
    have hdigit := Nat.isDigit_of_mem_toDigits (by decide) (by decide)
      ((List.isPrefixOf_iff_prefix.mp hmark).subset (List.mem_cons_self : 'x' ∈ _))
    cases hdigit
  rw [isPlainName, hascii, List.any_eq_false.mpr hlabels]
  rfl

theorem asciiForm?_writeIpv4 (address : Nat) :
    asciiForm? toAscii (String.ofList (writeIpv4 address)) = some (writeIpv4 address) := by
  have hlower : (writeIpv4 address).map Char.toLower = writeIpv4 address := by
    conv_rhs => rw [← List.map_id (writeIpv4 address)]
    exact List.map_congr_left fun c hc => (plain_of_mem_writeIpv4 hc).2.2
  rw [asciiForm?_of_lower hlower, if_pos (isPlainName_writeIpv4 address)]

/-- The written forms of hosts. -/
inductive IsHost (toAscii : ToAscii) : List Char → Prop
  | name {s : List Char} (hne : s ≠ []) (hchars : ∀ c ∈ s, isForbiddenInDomain c = false)
      (hform : asciiForm? toAscii (String.ofList s) = some s) (hnumber : endsInNumber s = false) :
      IsHost toAscii s
  | ipv4 {address : Nat} (h : address < 256 ^ 4) : IsHost toAscii (writeIpv4 address)
  | ipv6 {groups : List Nat} (h : IsIpv6 groups) :
      IsHost toAscii ('[' :: (writeIpv6 groups ++ [']']))

theorem isHost_of_parseDomain (laws : toAscii.Lawful) {s host : List Char}
    (h : parseDomain toAscii s = .ok host) : IsHost toAscii host := by
  unfold parseDomain at h
  split at h
  · cases h
  · next name hname =>
      obtain ⟨text, -, hform⟩ := Option.bind_eq_some_iff.mp hname
      split at h
      · cases h
      · next hallowed =>
          split at h
          · cases h
          · next hne =>
              split at h
              · split at h
                · next address haddress =>
                    cases h
                    exact .ipv4 (ipv4?_lt haddress)
                · cases h
              · next hnumber =>
                  cases h
                  rw [Bool.not_eq_true, List.any_eq_false] at hallowed
                  exact .name hne (fun c hc => by simpa using hallowed c hc)
                    (asciiForm?_of_asciiForm? laws hform) (by simpa using hnumber)

theorem isHost_of_parseHost (laws : toAscii.Lawful) {s host : List Char}
    (h : parseHost toAscii s = .ok host) : IsHost toAscii host := by
  unfold parseHost at h
  split at h
  · next result hresult =>
      subst h
      unfold parseBracketed? at hresult
      split at hresult
      · rw [Option.some.injEq] at hresult
        split at hresult
        · next groups hgroups =>
            cases hresult
            split at hgroups
            · exact .ipv6 (isIpv6_of_ipv6? hgroups)
            · cases hgroups
        · cases hresult
      · cases hresult
  · exact isHost_of_parseDomain laws h

theorem mem_writeGroups {groups : List Nat} {c : Char} (h : c ∈ writeGroups groups) :
    isForbiddenInDomain c = false ∨ c = ':' := by
  rcases mem_of_mem_intercalate h with rfl | ⟨part, hpart, hc⟩
  · exact .inr rfl
  · obtain ⟨group, -, rfl⟩ := List.mem_map.mp hpart
    exact .inl (plain_of_mem_toDigits (by decide) (by decide) hc).1

theorem mem_writeIpv6 {groups : List Nat} {c : Char} (h : c ∈ writeIpv6 groups) :
    isForbiddenInDomain c = false ∨ c = ':' := by
  unfold writeIpv6 at h
  dsimp only at h
  split at h
  · exact mem_writeGroups h
  · simp only [List.mem_append, List.mem_cons] at h
    rcases h with hleft | rfl | rfl | hright
    · exact mem_writeGroups hleft
    · exact .inr rfl
    · exact .inr rfl
    · exact mem_writeGroups hright

/-- Every host is read as it is written. -/
theorem IsHost.parseHost {s : List Char} (h : IsHost toAscii s) :
    parseHost toAscii s = .ok s := by
  have hplain {t : List Char} (hchars : ∀ c ∈ t, isForbiddenInDomain c = false) :
      parseBracketed? t = none := by
    unfold parseBracketed?
    split
    · cases hchars '[' List.mem_cons_self
    · rfl
  cases h with
  | name hne hchars hform hnumber =>
      rw [Url.parseHost, hplain hchars, parseDomain_of_forall hchars hform, if_neg hne,
        if_neg (by simp [hnumber])]
  | @ipv4 address h =>
      have hchars : ∀ c ∈ writeIpv4 address, isForbiddenInDomain c = false :=
        fun c hc => (plain_of_mem_writeIpv4 hc).1
      have hnumber := endsInNumber_writeIpv4 address
      have hne : writeIpv4 address ≠ [] := by
        intro hnil
        rw [hnil] at hnumber
        cases hnumber
      rw [Url.parseHost, hplain hchars, parseDomain_of_forall hchars (asciiForm?_writeIpv4 address),
        if_neg hne, if_pos hnumber, ipv4?_writeIpv4 h]
  | @ipv6 groups h =>
      have hlast : (writeIpv6 groups ++ [']']).getLast? = some ']' := List.getLast?_concat
      rw [Url.parseHost, parseBracketed?, if_pos hlast, List.dropLast_concat, ipv6?_writeIpv6 h]

/-! ## Where a host ends -/

theorem isHost_ne_nil {s : List Char} (h : IsHost toAscii s) : s ≠ [] := by
  intro hnil
  subst hnil
  cases h.parseHost

theorem lt_toNat_of_isControl {c : Char} (hcontrol : isControl c = false) (hspace : c ≠ ' ') :
    0x20 < c.toNat := by
  have hne : c.toNat ≠ 0x20 := fun heq => hspace (Char.toNat_inj.mp heq)
  simp only [isControl, Bool.or_eq_false_iff, decide_eq_false_iff_not] at hcontrol
  omega

/-- The characters of a host end no part of a URL that stands before or behind it, and there is no
blank among them. -/
theorem IsHost.chars {s : List Char} (h : IsHost toAscii s) {c : Char} (hc : c ∈ s) :
    c ∉ ['/', '\\', '?', '#', '@'] ∧ 0x20 < c.toNat := by
  have hdomain (hallowed : isForbiddenInDomain c = false) :
      c ∉ ['/', '\\', '?', '#', '@'] ∧ 0x20 < c.toNat := by
    have hcontrol : isControl c = false := by
      simp only [isForbiddenInDomain, Bool.or_eq_false_iff] at hallowed
      exact hallowed.1
    have hspace : c ≠ ' ' := by
      rintro rfl
      cases hallowed
    refine ⟨fun hmem => ?_, lt_toNat_of_isControl hcontrol hspace⟩
    fin_cases hmem
    all_goals cases hallowed
  cases h with
  | name hne hchars hform hnumber => exact hdomain (hchars c hc)
  | ipv4 h => exact hdomain (plain_of_mem_writeIpv4 hc).1
  | ipv6 h =>
      simp only [List.mem_cons, List.mem_append, List.not_mem_nil, or_false] at hc
      rcases hc with rfl | hinner | rfl
      · decide
      · rcases mem_writeIpv6 hinner with hchar | rfl
        · exact hdomain hchar
        · decide
      · decide

theorem splitPort_append {bracketed : Bool} {s : List Char}
    (h : ∀ c ∈ s, c ≠ '[' ∧ c ≠ ']' ∧ (c = ':' → bracketed = true)) (rest : List Char) :
    splitPort bracketed (s ++ rest) =
      (s ++ (splitPort bracketed rest).1, (splitPort bracketed rest).2) := by
  induction s with
  | nil => rfl
  | cons c s ih =>
      obtain ⟨⟨hopen, hclose, hcolon⟩, hrest⟩ := List.forall_mem_cons.mp h
      have hstop : ¬(c = ':' ∧ !bracketed) := by
        rintro ⟨rfl, hplain⟩
        simp [hcolon rfl] at hplain
      rw [List.cons_append, splitPort, if_neg hstop, if_neg hopen, if_neg hclose]
      dsimp only
      rw [ih hrest]
      rfl

/-- A colon within a host does not end it. -/
theorem IsHost.splitPort {s : List Char} (h : IsHost toAscii s) (rest : List Char) :
    splitPort false (s ++ rest) = (s ++ (splitPort false rest).1, (splitPort false rest).2) := by
  have hdomain {c : Char} (hc : isForbiddenInDomain c = false) :
      c ≠ '[' ∧ c ≠ ']' ∧ c ≠ ':' := by
    refine ⟨?_, ?_, ?_⟩
    all_goals
      rintro rfl
      cases hc
  have hplain {t : List Char} (hchars : ∀ c ∈ t, isForbiddenInDomain c = false) :
      Url.splitPort false (t ++ rest) =
        (t ++ (Url.splitPort false rest).1, (Url.splitPort false rest).2) := by
    refine splitPort_append (fun c hc => ?_) rest
    obtain ⟨hopen, hclose, hcolon⟩ := hdomain (hchars c hc)
    exact ⟨hopen, hclose, fun heq => absurd heq hcolon⟩
  cases h with
  | name hne hchars hform hnumber => exact hplain hchars
  | ipv4 h => exact hplain fun c hc => (plain_of_mem_writeIpv4 hc).1
  | @ipv6 groups h =>
      have hinside : ∀ c ∈ writeIpv6 groups, c ≠ '[' ∧ c ≠ ']' ∧ (c = ':' → true = true) := by
        intro c hc
        rcases mem_writeIpv6 hc with hchar | rfl
        · obtain ⟨hopen, hclose, -⟩ := hdomain hchar
          exact ⟨hopen, hclose, fun _ => rfl⟩
        · decide
      have hinner := splitPort_append hinside (']' :: rest)
      have hstart : Url.splitPort false ('[' :: (writeIpv6 groups ++ ']' :: rest)) =
          ('[' :: (Url.splitPort true (writeIpv6 groups ++ ']' :: rest)).1,
            (Url.splitPort true (writeIpv6 groups ++ ']' :: rest)).2) := rfl
      have hend : Url.splitPort true (']' :: rest) =
          (']' :: (Url.splitPort false rest).1, (Url.splitPort false rest).2) := rfl
      rw [List.cons_append, List.append_assoc, List.singleton_append, hstart, hinner, hend]
      simp

end DataCatalog.Url
