import DataCatalog.Proofs.BaseUrls
import DataCatalog.Proofs.Precedence

/-!
# What an experiment can do to the root of the service

The name of an experiment is put into the text of a URL before that text is read.  It stands behind
the host, so no name leads to another server.  But what ends a name in a URL ends the experiment
too, and a dot segment takes away what stands before it.  The path has the experiment for one of
its names exactly if the experiment holds nothing of this kind.  That nothing else can happen is a
matter of lengths: all names of the path but the fixed ones are pieces of the experiment, and what
is written for a piece is as long as what is written for the whole only if the piece is the whole.
-/

namespace DataCatalog

namespace Url

/-! ## What is written for pieces of a text -/

/-- A character is written shorter if it is not escaped. -/
theorem encodeChar_cases {set more : Char → Bool} (hmore : ∀ c, set c = true → more c = true)
    (c : Char) :
    encodeChar set c = encodeChar more c ∨
      (encodeChar set c).length < (encodeChar more c).length := by
  obtain ⟨high, low, rest, hescape⟩ := exists_escapeChar c
  cases hset : set c with
  | true => simp [encodeChar, hset, hmore c hset]
  | false =>
      cases hother : more c with
      | false => simp [encodeChar, hset, hother]
      | true =>
          cases hascii : isAscii c with
          | true => simp [encodeChar, hset, hother, hascii, hescape]
          | false => simp [encodeChar, hascii]

theorem length_encode_le {set more : Char → Bool} (hmore : ∀ c, set c = true → more c = true)
    {part s : List Char} (h : part.Sublist s) :
    (encode set part).length ≤ (encode more s).length := by
  induction h with
  | slnil => simp [encode]
  | cons c _ ih =>
      rw [encode_cons, List.length_append]
      omega
  | cons_cons c _ ih =>
      rw [encode_cons, encode_cons, List.length_append, List.length_append]
      rcases encodeChar_cases hmore c with hsame | hshorter
      · rw [hsame]
        omega
      · omega

/-- A part of a text is written in the same length only if it is the whole text, and then no
character is escaped that need not be. -/
theorem eq_of_length_encode_eq {set more : Char → Bool}
    (hmore : ∀ c, set c = true → more c = true) {part s : List Char} (h : part.Sublist s)
    (hlength : (encode set part).length = (encode more s).length) :
    part = s ∧ encode set s = encode more s := by
  induction h with
  | slnil => simp [encode]
  | @cons part s c hpart ih =>
      have hle := length_encode_le hmore hpart
      have hpos := List.length_pos_of_ne_nil (encodeChar_ne_nil more c)
      rw [encode_cons, List.length_append] at hlength
      omega
  | @cons_cons part s c hpart ih =>
      have hle := length_encode_le hmore hpart
      rw [encode_cons, encode_cons, List.length_append, List.length_append] at hlength
      rcases encodeChar_cases hmore c with hsame | hshorter
      · rw [hsame] at hlength
        obtain ⟨hwhole, hencode⟩ := ih (by omega)
        exact ⟨by rw [hwhole], by rw [encode_cons, encode_cons, hsame, hencode]⟩
      · omega

/-- Where no escape is written, nothing was changed. -/
theorem encode_eq_self_of_notMem {set : Char → Bool} {s : List Char}
    (h : '%' ∉ encode set s) : encode set s = s := by
  induction s with
  | nil => rfl
  | cons c s ih =>
      rw [encode_cons, List.mem_append, not_or] at h
      have hchar : encodeChar set c = [c] := by
        unfold encodeChar at h ⊢
        split at h
        · next hplain => rw [if_pos hplain]
        · obtain ⟨high, low, more, hescape⟩ := exists_escapeChar c
          simp [hescape] at h
      rw [encode_cons, hchar, ih h.2, List.singleton_append]

/-- Two sets, of which one holds the other, write a text alike if they do so with its characters. -/
theorem encode_eq_encode_iff {set more : Char → Bool}
    (hmore : ∀ c, set c = true → more c = true) {s : List Char} :
    encode set s = encode more s ↔ ∀ c ∈ s, encodeChar set c = encodeChar more c := by
  constructor
  · intro h
    induction s with
    | nil => simp
    | cons c s ih =>
        have hlengths := congrArg List.length h
        have hle := length_encode_le hmore (.refl s)
        rw [encode_cons, encode_cons] at h hlengths
        rw [List.length_append, List.length_append] at hlengths
        rcases encodeChar_cases hmore c with hsame | hshorter
        · rw [hsame, List.append_cancel_left_eq] at h
          exact List.forall_mem_cons.mpr ⟨hsame, ih h⟩
        · omega
  · intro h
    rw [encode, encode, List.flatMap_def, List.flatMap_def, List.map_congr_left h]

theorem segmentSet_of_pathSet {c : Char} (h : pathSet c = true) : segmentSet c = true := by
  simp [segmentSet, h]

/-- What is written for a name that is added is written for the text in a path, too, if there is no
escape in the text. -/
theorem encode_pathSet_eq_encode_segmentSet_iff {s : List Char}
    (hslash : ∀ c ∈ s, isSlash c = false) :
    encode pathSet s = encode segmentSet s ↔ '%' ∉ s := by
  rw [encode_eq_encode_iff fun c => segmentSet_of_pathSet]
  constructor
  · intro h hmem
    have hpercent := h '%' hmem
    revert hpercent
    decide
  · intro hpercent c hc
    have hne : c ≠ '%' := fun heq => hpercent (heq ▸ hc)
    have hplain := hslash c hc
    simp only [isSlash, Bool.or_eq_false_iff, beq_eq_false_iff_ne] at hplain
    have hsets : segmentSet c = pathSet c := by
      simp [segmentSet, hne, hplain.1, hplain.2]
    rw [encodeChar, encodeChar, hsets]

/-! ## Dot segments in a path -/

/-- The forms of dot segments in small letters. -/
def dotForms : List (List Char) :=
  ["..".toList, "%2e%2e".toList, ".%2e".toList, "%2e.".toList, ".".toList, "%2e".toList]

theorem mem_dotForms_iff {s : List Char} :
    s.map Char.toLower ∈ dotForms ↔ isDoubleDot s = true ∨ isSingleDot s = true := by
  simp [dotForms, isDoubleDot, isSingleDot, or_assoc]

theorem digits_of_infix_dotForms {form : List Char} (hform : form ∈ dotForms) {high low : Char}
    (h : ['%', high, low] <:+: form) : high = '2' ∧ low = 'e' := by
  simp only [dotForms, List.mem_cons, List.not_mem_nil, or_false] at hform
  rcases hform with rfl | rfl | rfl | rfl | rfl | rfl
  all_goals simp_all [List.infix_cons_iff]

/-- The only byte that is escaped in a dot segment is that of the dot. -/
theorem eq_of_escapeByte_infix {form : List Char} (hform : form ∈ dotForms) {b : UInt8}
    (h : (escapeByte b).map Char.toLower <:+: form) : b = 0x2e := by
  have hbyte : b.toNat < 256 := b.toNat_lt
  have hvalue {n m : Nat} (hn : n < 16) {digit : Char} (hdigit : Text.hexValue? digit = some m)
      (heq : (Text.upperHex n).toLower = digit) : n = m := by
    rw [← heq, hexValue?_toLower, Text.hexValue?_upperHex hn] at hdigit
    exact Option.some_inj.mp hdigit
  obtain ⟨hhigh, hlow⟩ := digits_of_infix_dotForms hform h
  have hquotient := hvalue (m := 2) (by omega) rfl hhigh
  have hremainder := hvalue (m := 14) (by omega) rfl hlow
  rw [← ofNat_nibbles b, hquotient, hremainder]
  rfl

theorem eq_dot_of_utf8 {c : Char} (h : ∀ b ∈ String.utf8EncodeChar c, b = 0x2e) : c = '.' := by
  have hbytes : utf8 [c] = utf8 (List.replicate (String.utf8EncodeChar c).length '.') := by
    have hdots (n : Nat) : utf8 (List.replicate n '.') = List.replicate n 0x2e := by
      induction n with
      | zero => rfl
      | succ n ih =>
          rw [List.replicate_succ, List.replicate_succ, ← ih]
          rfl
    rw [hdots, utf8, List.flatMap_singleton]
    exact List.eq_replicate_of_mem h
  have hmem : c ∈ List.replicate (String.utf8EncodeChar c).length '.' := by
    rw [← utf8_injective hbytes]
    exact List.mem_singleton_self c
  exact List.eq_of_mem_replicate hmem

/-- Where a path holds a dot segment, nothing was escaped. -/
theorem encode_eq_self_of_dot {s : List Char}
    (h : (encode pathSet s).map Char.toLower ∈ dotForms) : encode pathSet s = s := by
  refine encode_eq_self fun c hc => ?_
  by_contra hescaped
  have hescape : encodeChar pathSet c = escapeChar c := by
    rw [encodeChar, if_neg (by simpa using hescaped)]
  have hdot : c = '.' := by
    refine eq_dot_of_utf8 fun b hb => eq_of_escapeByte_infix h ?_
    have hbyte : escapeByte b <:+: escapeChar c :=
      List.infix_of_mem_flatten (List.mem_map_of_mem hb)
    have hchar : encodeChar pathSet c <:+: encode pathSet s :=
      List.infix_of_mem_flatten (List.mem_map_of_mem hc)
    exact (hbyte.trans (hescape ▸ hchar)).map Char.toLower
  rw [hdot] at hescaped
  exact hescaped (by decide)

theorem encode_dot {s : List Char} (h : s.map Char.toLower ∈ dotForms) : encode pathSet s = s := by
  refine encode_eq_self fun c hc => ?_
  rcases toLower_cases c with hsame | ⟨m, rfl⟩
  · have all : ∀ form ∈ dotForms, ∀ c ∈ form, isAscii c = true ∧ pathSet c = false := by
      simp [dotForms, isAscii, pathSet, fragmentSet, isControl]
    exact all _ h c (hsame ▸ List.mem_map_of_mem hc)
  · have all : ∀ m : Fin 26, isAscii (Char.ofNat ('A'.toNat + m)) = true ∧
        pathSet (Char.ofNat ('A'.toNat + m)) = false := by decide
    exact all m

/-- A text is a dot segment of a path exactly if it is one as it stands. -/
theorem not_dot_encode_iff {s : List Char} :
    isDoubleDot (encode pathSet s) = false ∧ isSingleDot (encode pathSet s) = false ↔
      isDoubleDot s = false ∧ isSingleDot s = false := by
  have hforms : (encode pathSet s).map Char.toLower ∈ dotForms ↔
      s.map Char.toLower ∈ dotForms := by
    constructor
    · intro h
      rwa [encode_eq_self_of_dot h] at h
    · intro h
      rwa [encode_dot h]
  rw [mem_dotForms_iff, mem_dotForms_iff] at hforms
  simpa [not_or] using not_congr hforms

/-! ## The text of the root -/

/-- The characters that end the path of a URL. -/
def endsPath (c : Char) : Bool :=
  c == '?' || c == '#'

end Url

namespace Config

open Url

/-- The pieces of the text behind the name of the application. -/
def rootPieces (experiment : List Char) : List (List Char) :=
  splitOn isSlash (splitBefore endsPath (stripped experiment ++ ['/', 'r'])).1

/-- The path of the root of the service. -/
def rootPath (experiment : List Char) (mode : Mode) : List String :=
  trimPath (addSegments [mode.application] ((rootPieces experiment).map (encode pathSet)))

theorem toList_serviceRoot (experiment : String) (mode : Mode) :
    (serviceRoot experiment mode).toList =
      "https".toList ++ ':' :: '/' :: '/' :: ("srs.slac.stanford.edu".toList ++ '/' ::
        (mode.application.toList ++ '/' :: (experiment.toList ++ ['/', 'r']))) := by
  simp [serviceRoot, server]

theorem clean_serviceRoot (experiment : String) (mode : Mode) :
    clean (serviceRoot experiment mode).toList =
      "https".toList ++ ':' :: '/' :: '/' :: ("srs.slac.stanford.edu".toList ++ '/' ::
        (mode.application.toList ++ '/' :: (stripped experiment.toList ++ ['/', 'r']))) := by
  have hfirst : (serviceRoot experiment mode).toList.head? = some 'h' := by
    rw [toList_serviceRoot]
    simp
  have hlast : (serviceRoot experiment mode).toList.getLast? = some 'r' := by
    rw [toList_serviceRoot]
    simp [List.getLast?_cons]
  rw [clean_eq_stripped (by simp [hfirst]) (by simp [hlast]), toList_serviceRoot]
  cases mode <;> simp [stripped, isIgnored, Mode.application]

theorem parsePath_root (experiment : List Char) (mode : Mode) :
    parsePath ('/' :: (mode.application.toList ++ '/' ::
        (splitBefore endsPath (stripped experiment ++ ['/', 'r'])).1)) =
      addSegments [mode.application] ((rootPieces experiment).map (encode pathSet)) := by
  have happlication : ∀ c ∈ mode.application.toList, isSlash c = false := by
    cases mode <;> simp [Mode.application, isSlash]
  have hfirst : addSegment [] false (encode pathSet mode.application.toList) =
      [mode.application] := by
    cases mode <;> rfl
  obtain ⟨piece, more, hpieces⟩ := List.exists_cons_of_ne_nil
    (splitOn_ne_nil isSlash (splitBefore endsPath (stripped experiment ++ ['/', 'r'])).1)
  rw [parsePath, splitOn_append_cons rfl, splitOn_of_forall happlication, rootPieces, hpieces,
    List.singleton_append, List.map_cons, List.map_cons, addSegments, hfirst]
  simp

theorem parse_serviceRoot (experiment : String) (mode : Mode) (toAscii : ToAscii) :
    ∃ query fragment, parse toAscii (serviceRoot experiment mode) =
      .ok (.url ⟨"https", "", "srs.slac.stanford.edu", none,
        addSegments [mode.application] ((rootPieces experiment.toList).map (encode pathSet)),
        query, fragment⟩) := by
  have hhost : parseAuthority toAscii (defaultPort? "https") "srs.slac.stanford.edu".toList =
      .ok ⟨"", "srs.slac.stanford.edu", none⟩ := rfl
  have hmarks : ∀ c ∈ "srs.slac.stanford.edu".toList,
      (isSlash c || c == '?' || c == '#') = false := by
    simp [isSlash]
  have hfront : ∀ c ∈ '/' :: (mode.application.toList ++ ['/']), endsPath c = false := by
    cases mode <;> simp [Mode.application, endsPath]
  have hpath := splitBefore_append_of_forall hfront (stripped experiment.toList ++ ['/', 'r'])
  rw [List.cons_append, List.append_assoc, List.singleton_append, List.cons_append,
    List.append_assoc, List.singleton_append] at hpath
  have hweb := parseWeb_append (by simp) hmarks hhost
    (mode.application.toList ++ '/' :: (stripped experiment.toList ++ ['/', 'r']))
  have hends : (fun c => c == '?' || c == '#') = endsPath := rfl
  rw [hends, hpath] at hweb
  dsimp only at hweb
  rw [parsePath_root] at hweb
  have hport : (defaultPort? "https").isSome = true := rfl
  rw [parse, clean_serviceRoot, splitScheme?_append (.inr rfl)]
  dsimp only
  rw [if_pos hport, hweb]
  exact ⟨_, _, rfl⟩

theorem parseBaseUrl_serviceRoot (experiment : String) (mode : Mode) (toAscii : ToAscii) :
    parseBaseUrl (serviceRoot experiment mode) toAscii =
      .ok ⟨"https", "", "srs.slac.stanford.edu", none, rootPath experiment.toList mode, none,
        none⟩ := by
  obtain ⟨query, fragment, hparse⟩ := parse_serviceRoot experiment mode toAscii
  rw [parseBaseUrl, hparse]
  rfl

/-! ## Names of the path -/

theorem piece_cases {experiment piece : List Char} (h : piece ∈ rootPieces experiment) :
    piece.Sublist experiment ∨ piece = ['r'] := by
  have hkept : (stripped experiment).Sublist experiment := List.filter_sublist
  rw [rootPieces, splitBefore, List.takeWhile_append] at h
  split at h
  · have htail : ['/', 'r'].takeWhile (!endsPath ·) = ['/', 'r'] := by decide
    rw [htail, splitOn_append_cons rfl, List.mem_append] at h
    rcases h with hpiece | hlast
    · exact .inl ((sublist_of_mem_splitOn hpiece).trans hkept)
    · exact .inr (List.mem_singleton.mp hlast)
  · have htaken := List.takeWhile_sublist (!endsPath ·) (l := stripped experiment)
    exact .inl ((sublist_of_mem_splitOn h).trans (htaken.trans hkept))

/-- Nothing in the text ends a name or is left out, and it is no dot segment. -/
structure IsOneName (s : List Char) : Prop where
  chars : ∀ c ∈ s, c ∉ ['/', '\\', '?', '#', '\t', '\n', '\r']
  notDouble : isDoubleDot s = false
  notSingle : isSingleDot s = false

theorem notMem_marks_iff {c : Char} :
    c ∉ ['/', '\\', '?', '#', '\t', '\n', '\r'] ↔
      isSlash c = false ∧ endsPath c = false ∧ isIgnored c = false := by
  simp [isSlash, endsPath, isIgnored, and_assoc]

/-- If the experiment is a piece, nothing in it was taken for the end of one. -/
theorem chars_of_mem_rootPieces {experiment : List Char}
    (h : experiment ∈ rootPieces experiment) {c : Char} (hc : c ∈ experiment) :
    c ∉ ['/', '\\', '?', '#', '\t', '\n', '\r'] := by
  have hslash : isSlash c = false := not_separator_of_mem_splitOn h hc
  have hfront := mem_of_mem_splitOn h hc
  have hends : endsPath c = false := by simpa using List.mem_takeWhile_imp hfront
  have hmem := (List.takeWhile_sublist _).subset hfront
  refine notMem_marks_iff.mpr ⟨hslash, hends, ?_⟩
  rw [List.mem_append] at hmem
  rcases hmem with hstripped | htail
  · simpa using List.of_mem_filter hstripped
  · fin_cases htail
    · cases hslash
    · rfl

theorem rootPath_of_isOneName {experiment : List Char} (h : IsOneName experiment) (mode : Mode) :
    rootPath experiment mode =
      [mode.application, String.ofList (encode pathSet experiment), "r"] := by
  have hchars := fun c hc => notMem_marks_iff.mp (h.chars c hc)
  have hstripped : stripped experiment = experiment :=
    stripped_of_forall fun c hc => (hchars c hc).2.2
  have hpieces : rootPieces experiment = [experiment, ['r']] := by
    rw [rootPieces, hstripped, splitBefore_append_of_forall fun c hc => (hchars c hc).2.1]
    have htail : (splitBefore endsPath ['/', 'r']).1 = ['/', 'r'] := by decide
    rw [htail, splitOn_append_cons rfl, splitOn_of_forall fun c hc => (hchars c hc).1]
    rfl
  have hlast : encode pathSet ['r'] = ['r'] := by decide
  have hplain : ∀ segment ∈ [encode pathSet experiment, ['r']],
      isDoubleDot segment = false ∧ isSingleDot segment = false := by
    simp only [List.forall_mem_cons]
    exact ⟨not_dot_encode_iff.mpr ⟨h.notDouble, h.notSingle⟩, by decide, by simp⟩
  rw [rootPath, hpieces, List.map_cons, List.map_singleton, hlast, addSegments_of_forall hplain]
  rfl

/-- The names of a path that do not come from the experiment. -/
def fixedNames : List (List Char) :=
  ["datacat".toList, "datacat-dev".toList, ['r'], []]

theorem isOneName_of_mem_fixedNames {name : List Char} (h : name ∈ fixedNames) :
    '%' ∉ name ∧ IsOneName name ∧ encode pathSet name = name := by
  have hchars : ∀ name ∈ fixedNames, ∀ c ∈ name,
      c ∉ ['/', '\\', '?', '#', '\t', '\n', '\r'] := by
    simp [fixedNames]
  have hname : ∀ name ∈ fixedNames, '%' ∉ name ∧ isDoubleDot name = false ∧
      isSingleDot name = false ∧ encode pathSet name = name := by
    decide +kernel
  obtain ⟨hpercent, hdouble, hsingle, hsame⟩ := hname name h
  exact ⟨hpercent, ⟨hchars name h, hdouble, hsingle⟩, hsame⟩

theorem fixed_or_piece {experiment : List Char} {mode : Mode} {name : List Char}
    (h : String.ofList name ∈ rootPath experiment mode) :
    name ∈ fixedNames ∨ ∃ piece, piece ∈ rootPieces experiment ∧ piece.Sublist experiment ∧
      name = encode pathSet piece ∧ isDoubleDot name = false ∧ isSingleDot name = false := by
  have hname {t : String} (heq : String.ofList name = t) : name = t.toList := by
    rw [← heq, String.toList_ofList]
  rcases mem_of_mem_trimPath h with hadded | hempty
  · rcases mem_addSegments hadded with happlication | hempty | ⟨_, hsegment, heq, hdots⟩
    · left
      rw [hname (List.mem_singleton.mp happlication)]
      cases mode <;> simp [fixedNames, Mode.application]
    · rw [hname hempty]
      exact .inl (by simp [fixedNames])
    · obtain ⟨piece, hpiece, rfl⟩ := List.mem_map.mp hsegment
      have hwritten := String.ofList_injective heq
      rcases piece_cases hpiece with hpart | rfl
      · exact .inr ⟨piece, hpiece, hpart, hwritten, hwritten ▸ hdots⟩
      · have hlast : encode pathSet ['r'] = ['r'] := by decide
        rw [hwritten, hlast]
        exact .inl (by simp [fixedNames])
  · rw [hname hempty]
    exact .inl (by simp [fixedNames])

/-- Escaping more than a path needs gives the name only if nothing more is escaped. -/
theorem rootPath_eq_iff {set : Char → Bool} (hset : ∀ c, pathSet c = true → set c = true)
    (experiment : List Char) (mode : Mode) :
    rootPath experiment mode =
        [mode.application, String.ofList (encode set experiment), "r"] ↔
      IsOneName experiment ∧ encode pathSet experiment = encode set experiment := by
  constructor
  · intro h
    have hmem : String.ofList (encode set experiment) ∈ rootPath experiment mode := by
      simp [h]
    rcases fixed_or_piece hmem with hfixed | ⟨piece, hpiece, hpart, hwritten, hdouble, hsingle⟩
    · obtain ⟨hpercent, hname, hsame⟩ := isOneName_of_mem_fixedNames hfixed
      have hexperiment := encode_eq_self_of_notMem hpercent
      rw [hexperiment] at hname hsame ⊢
      exact ⟨hname, hsame⟩
    · obtain ⟨rfl, hsame⟩ := eq_of_length_encode_eq hset hpart (congrArg List.length hwritten.symm)
      have hdots := not_dot_encode_iff.mp ⟨hsame ▸ hdouble, hsame ▸ hsingle⟩
      exact ⟨⟨fun c hc => chars_of_mem_rootPieces hpiece hc, hdots.1, hdots.2⟩, hsame⟩
  · rintro ⟨hname, hencode⟩
    rw [← hencode, rootPath_of_isOneName hname]

theorem IsOneName.separate {s : List Char} (h : IsOneName s) : ∀ c ∈ s, isSlash c = false :=
  fun c hc => (notMem_marks_iff.mp (h.chars c hc)).1

/-- What is escaped in a name that is added need not be escaped, if there is no percent sign. -/
theorem isOneName_written_iff {s : List Char} :
    IsOneName s ∧ encode pathSet s = encode segmentSet s ↔
      (∀ c ∈ s, c ∉ ['/', '\\', '?', '#', '%', '\t', '\n', '\r']) ∧ s ≠ ['.'] ∧ s ≠ ['.', '.'] := by
  have hmarks (c : Char) : c ∉ ['/', '\\', '?', '#', '%', '\t', '\n', '\r'] ↔
      c ∉ ['/', '\\', '?', '#', '\t', '\n', '\r'] ∧ c ≠ '%' := by
    simp only [List.mem_cons, List.not_mem_nil, not_or]
    tauto
  have hdots (hsame : encode pathSet s = encode segmentSet s) :
      isDoubleDot s = false ∧ isSingleDot s = false ↔ s ≠ ['.', '.'] ∧ s ≠ ['.'] := by
    rw [← not_dot_encode_iff, hsame, ← Bool.not_eq_true, ← Bool.not_eq_true,
      isDoubleDot_encode_iff, isSingleDot_encode_iff]
  constructor
  · rintro ⟨hname, hsame⟩
    have hpercent := (encode_pathSet_eq_encode_segmentSet_iff hname.separate).mp hsame
    obtain ⟨hdouble, hsingle⟩ := (hdots hsame).mp ⟨hname.notDouble, hname.notSingle⟩
    refine ⟨fun c hc => (hmarks c).mpr ⟨hname.chars c hc, ?_⟩, hsingle, hdouble⟩
    exact fun heq => hpercent (heq ▸ hc)
  · rintro ⟨hchars, hsingle, hdouble⟩
    have hrest : ∀ c ∈ s, c ∉ ['/', '\\', '?', '#', '\t', '\n', '\r'] :=
      fun c hc => ((hmarks c).mp (hchars c hc)).1
    have hpercent : '%' ∉ s := fun hmem => ((hmarks '%').mp (hchars '%' hmem)).2 rfl
    have hsame := (encode_pathSet_eq_encode_segmentSet_iff fun c hc =>
      (notMem_marks_iff.mp (hrest c hc)).1).mpr hpercent
    obtain ⟨hdouble, hsingle⟩ := (hdots hsame).mpr ⟨hdouble, hsingle⟩
    exact ⟨⟨hrest, hdouble, hsingle⟩, hsame⟩

/-- Without a URL, a configuration is always for the one server, and what is left of the name of
the experiment stands in the path behind the application.  The experiment is one of three names
there exactly if it holds neither slashes nor what ends a path or is left out of a URL, and is no
dot segment; what escapes keep apart is kept apart only if it has no percent sign either. -/
theorem resolve_serviceRoot {url experiment mode : Option String} {env : Environment}
    {toAscii : ToAscii} {config : Config} (hnone : (url <|> env.url) = none)
    (h : resolve url experiment mode env toAscii = .ok config) :
    let base := config.baseUrl
    let named := (experiment <|> env.experiment).getD "lsst"
    ∃ installation, Mode.parse ((mode <|> env.mode).getD "prod") = .ok installation ∧
      (base.scheme = "https" ∧ base.userInfo = "" ∧ base.host = "srs.slac.stanford.edu" ∧
        base.port = none ∧ base.query = none ∧ base.fragment = none) ∧
      (base.path =
          [installation.application, String.ofList (encode pathSet named.toList), "r"] ↔
        (∀ c ∈ named.toList, c ∉ ['/', '\\', '?', '#', '\t', '\n', '\r']) ∧
          isDoubleDot named.toList = false ∧ isSingleDot named.toList = false) ∧
      (base.path = [installation.application, written named.toList, "r"] ↔
        (∀ c ∈ named.toList, c ∉ ['/', '\\', '?', '#', '%', '\t', '\n', '\r']) ∧
          named ≠ "." ∧ named ≠ "..") := by
  intro base named
  obtain ⟨text, given, htext, hgiven, hbase, -⟩ := resolve_eq_ok_iff.mp h
  rw [baseText_of_none hnone, map_eq_ok_iff] at htext
  obtain ⟨installation, hmode, rfl⟩ := htext
  obtain ⟨root, hroot, rfl⟩ := map_eq_ok_iff.mp hgiven
  rw [parseBaseUrl_serviceRoot, Except.ok.injEq] at hroot
  subst hroot
  have hpath : base.path = rootPath named.toList installation := by
    simp only [base, hbase, named]
  refine ⟨installation, hmode, ?_, ?_, ?_⟩
  · simp [base, hbase]
  · rw [hpath, rootPath_eq_iff fun _ => id, and_iff_left rfl]
    exact ⟨fun h => ⟨h.chars, h.notDouble, h.notSingle⟩, fun ⟨hchars, hdouble, hsingle⟩ =>
      ⟨hchars, hdouble, hsingle⟩⟩
  · rw [hpath, written, rootPath_eq_iff fun _ => segmentSet_of_pathSet, isOneName_written_iff]
    simp [← String.toList_inj]

/-- Blanks, letters beyond ASCII and escapes do not end a name. -/
theorem resolve_serviceRoot_blank :
    ∃ config, resolve none (some "é 50%3f") none { mode := some "Dev" } = .ok config ∧
      config.baseUrl.path = ["datacat-dev", "%C3%A9%2050%3f", "r"] := by
  obtain ⟨config, hconfig⟩ : Succeeds (resolve none (some "é 50%3f") none { mode := some "Dev" }) :=
    .of_isOk (by decide +kernel)
  obtain ⟨installation, hmode, -, hpath, -⟩ := resolve_serviceRoot rfl hconfig
  have hdev : Mode.parse "Dev" = .ok .dev := rfl
  obtain rfl : installation = .dev := Except.ok.inj (hmode.symm.trans hdev)
  have hnamed : (∀ c ∈ "é 50%3f".toList, c ∉ ['/', '\\', '?', '#', '\t', '\n', '\r']) ∧
      isDoubleDot "é 50%3f".toList = false ∧ isSingleDot "é 50%3f".toList = false :=
    ⟨by simp, by decide, by decide⟩
  exact ⟨config, hconfig, (hpath.mpr hnamed).trans (by decide +kernel)⟩

/-- A question mark takes the end of the path away. -/
theorem not_forall_serviceRoot_path :
    ¬∀ (experiment mode : String) (config : Config), experiment ≠ "" →
      resolve none (some experiment) (some mode) {} = .ok config →
      ∃ application name, config.baseUrl.path = [application, name, "r"] := by
  intro hall
  obtain ⟨config, hconfig⟩ : Succeeds (resolve none (some "x?y") (some "prod") {}) :=
    .of_isOk (by decide +kernel)
  have hpath : config.baseUrl.path = ["datacat", "x"] := by
    have hresolve : ((resolve none (some "x?y") (some "prod") {}).map (·.baseUrl.path)).toOption =
        some ["datacat", "x"] := by decide +kernel
    rw [hconfig] at hresolve
    exact Option.some_inj.mp hresolve
  obtain ⟨application, name, hthree⟩ := hall "x?y" "prod" config (by decide) hconfig
  rw [hpath] at hthree
  cases hthree

end Config

end DataCatalog
