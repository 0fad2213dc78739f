import DataCatalog.Proofs.PlainTargets
import DataCatalog.Proofs.SearchQuery
import DataCatalog.Proofs.WrittenHosts

/-!
# Base URLs are read as they are written

A base URL is a normal form: the parts of its text are found again where they were put, and each of
them is read as it is written.  User information and names of a path hold only characters that stand
for themselves, so escaping changes nothing more; a port is in its range and not the usual one; no
name of a path is a dot segment.  So a base URL is one of these forms, and these forms are all read
back.  Of the conversion of domain names only its laws are used.
-/

namespace DataCatalog

namespace Url

/-! ## Escapes -/

theorem encode_cons (set : Char → Bool) (c : Char) (s : List Char) :
    encode set (c :: s) = encodeChar set c ++ encode set s :=
  List.flatMap_cons

theorem exists_escapeChar (c : Char) :
    ∃ high low more, escapeChar c = '%' :: high :: low :: more := by
  have hlength : 0 < (String.utf8EncodeChar c).length := by
    rw [String.length_utf8EncodeChar]
    exact c.utf8Size_pos
  obtain ⟨b, bytes, hbytes⟩ := List.exists_cons_of_length_pos hlength
  rw [escapeChar, hbytes, List.flatMap_cons]
  exact ⟨_, _, bytes.flatMap escapeByte, rfl⟩

theorem encodeChar_ne_nil (set : Char → Bool) (c : Char) : encodeChar set c ≠ [] := by
  obtain ⟨high, low, more, hescape⟩ := exists_escapeChar c
  unfold encodeChar
  split
  · simp
  · simp [hescape]

theorem encode_eq_self {set : Char → Bool} {s : List Char}
    (h : ∀ c ∈ s, isAscii c = true ∧ set c = false) : encode set s = s := by
  induction s with
  | nil => rfl
  | cons c s ih =>
      obtain ⟨⟨hascii, hplain⟩, hrest⟩ := List.forall_mem_cons.mp h
      rw [encode_cons, ih hrest, encodeChar, if_pos (by simp [hascii, hplain]),
        List.singleton_append]

/-- The characters of escapes are not escaped themselves. -/
def KeepsEscapes (set : Char → Bool) : Prop :=
  set '%' = false ∧ ∀ n < 16, set (Text.upperHex n) = false

theorem plain_of_mem_encode {set : Char → Bool} (hset : KeepsEscapes set) {s : List Char}
    {c : Char} (h : c ∈ encode set s) : isAscii c = true ∧ set c = false := by
  obtain ⟨d, -, hc⟩ := List.mem_flatMap.mp h
  unfold encodeChar at hc
  split at hc
  · next hplain =>
      rw [List.mem_singleton.mp hc]
      simpa using hplain
  · rcases digit_of_mem_escapeChar hc with rfl | ⟨n, hn, rfl⟩
    · exact ⟨rfl, hset.1⟩
    · have hascii : ∀ m : Fin 16, isAscii (Text.upperHex m) = true := by decide
      exact ⟨hascii ⟨n, hn⟩, hset.2 n hn⟩

theorem keepsEscapes_pathSet : KeepsEscapes pathSet := by
  have hdigit : ∀ m : Fin 16, pathSet (Text.upperHex m) = false := by decide
  exact ⟨rfl, fun n hn => hdigit ⟨n, hn⟩⟩

theorem keepsEscapes_userInfoSet : KeepsEscapes userInfoSet := by
  have hdigit : ∀ m : Fin 16, userInfoSet (Text.upperHex m) = false := by decide
  exact ⟨rfl, fun n hn => hdigit ⟨n, hn⟩⟩

theorem lt_toNat_of_pathSet {c : Char} (h : pathSet c = false) : 0x20 < c.toNat := by
  have hspace : c ≠ ' ' := by
    rintro rfl
    cases h
  simp only [pathSet, fragmentSet, Bool.or_eq_false_iff] at h
  exact lt_toNat_of_isControl h.1.1 hspace

/-! ## User information -/

theorem writeUserInfo_cases (s : List Char) :
    (∃ name, writeUserInfo s = encode userInfoSet name) ∨
      ∃ name c password, writeUserInfo s =
        encode userInfoSet name ++ ':' :: encode userInfoSet (c :: password) := by
  unfold writeUserInfo
  split
  · exact .inr ⟨_, _, _, rfl⟩
  · exact .inl ⟨_, rfl⟩

theorem mem_writeUserInfo {s : List Char} {c : Char} (h : c ∈ writeUserInfo s) :
    userInfoSet c = false ∨ c = ':' := by
  have hencoded {t : List Char} (ht : c ∈ encode userInfoSet t) : userInfoSet c = false :=
    (plain_of_mem_encode keepsEscapes_userInfoSet ht).2
  rcases writeUserInfo_cases s with ⟨name, hwritten⟩ | ⟨name, first, password, hwritten⟩
  · rw [hwritten] at h
    exact .inl (hencoded h)
  · rw [hwritten, List.mem_append, List.mem_cons] at h
    rcases h with hname | hcolon | hpassword
    · exact .inl (hencoded hname)
    · exact .inr hcolon
    · exact .inl (hencoded hpassword)

theorem encode_encode_userInfoSet (s : List Char) :
    encode userInfoSet (encode userInfoSet s) = encode userInfoSet s :=
  encode_eq_self fun _ => plain_of_mem_encode keepsEscapes_userInfoSet

/-- Written user information is not changed by writing it again. -/
theorem writeUserInfo_writeUserInfo (s : List Char) :
    writeUserInfo (writeUserInfo s) = writeUserInfo s := by
  have hcolon (t : List Char) : ∀ c ∈ encode userInfoSet t, (c == ':') = false := by
    intro c hc
    have hplain := (plain_of_mem_encode keepsEscapes_userInfoSet hc).2
    have hne : c ≠ ':' := by
      rintro rfl
      cases hplain
    simpa using hne
  rcases writeUserInfo_cases s with ⟨name, hwritten⟩ | ⟨name, c, password, hwritten⟩
  · rw [hwritten, writeUserInfo, splitBefore_of_forall (hcolon name)]
    exact encode_encode_userInfoSet name
  · have hne : encode userInfoSet (c :: password) ≠ [] := by
      simp [encode_cons, encodeChar_ne_nil]
    obtain ⟨d, more, hmore⟩ := List.exists_cons_of_ne_nil hne
    rw [hwritten, writeUserInfo, splitBefore_append (hcolon name) (beq_self_eq_true ':'), hmore]
    dsimp only
    rw [← hmore, encode_encode_userInfoSet, encode_encode_userInfoSet]

/-! ## The authority -/

/-- The host and the port. -/
def address (url : Url) : List Char :=
  url.host.toList ++
    match url.port with
    | some port => ':' :: Nat.toDigits 10 port
    | none => []

/-- What stands between the two slashes and the path. -/
def authority (url : Url) : List Char :=
  (if url.userInfo = "" then [] else url.userInfo.toList ++ ['@']) ++ url.address

theorem splitUserInfo?_append {info address : List Char} (h : '@' ∉ address) :
    splitUserInfo? (info ++ '@' :: address) = some (info, address) := by
  have hplain : ∀ c ∈ address.reverse, (c == '@') = false := by
    intro c hc
    have hne : c ≠ '@' := fun heq => h (heq ▸ List.mem_reverse.mp hc)
    simpa using hne
  have hreverse : (info ++ '@' :: address).reverse = address.reverse ++ '@' :: info.reverse := by
    simp
  rw [splitUserInfo?, hreverse, splitBefore_append hplain (beq_self_eq_true '@')]
  simp

theorem splitUserInfo?_of_notMem {address : List Char} (h : '@' ∉ address) :
    splitUserInfo? address = none := by
  have hplain : ∀ c ∈ address.reverse, (c == '@') = false := by
    intro c hc
    have hne : c ≠ '@' := fun heq => h (heq ▸ List.mem_reverse.mp hc)
    simpa using hne
  rw [splitUserInfo?, splitBefore_of_forall hplain]

theorem parsePort_toDigits {usual : Option Nat} {port : Nat} (hle : port ≤ 65535)
    (husual : usual ≠ some port) : parsePort usual (Nat.toDigits 10 port) = .ok (some port) := by
  have hdigits : (Nat.toDigits 10 port).all Char.isDigit = true :=
    List.all_eq_true.mpr fun c => Nat.isDigit_of_mem_toDigits (by decide) (by decide)
  simp [parsePort, hdigits, Nat.ofDigitChars_ten_toDigits, hle, Nat.toDigits_ne_nil, husual]

theorem of_parsePort {usual port : Option Nat} {digits : List Char}
    (h : parsePort usual digits = .ok port) :
    ∀ p, port = some p → p ≤ 65535 ∧ usual ≠ some p := by
  unfold parsePort at h
  dsimp only at h
  split at h
  · next hrange =>
      rintro p rfl
      rw [Except.ok.injEq] at h
      split at h
      · cases h
      · next husual =>
          cases h
          exact ⟨hrange.2, fun heq => husual (.inr heq)⟩
  · cases h

theorem of_parseAuthority {toAscii : ToAscii} (laws : toAscii.Lawful) {usual : Option Nat}
    {s : List Char} {authority : Authority} (h : parseAuthority toAscii usual s = .ok authority) :
    (∃ info, authority.userInfo = String.ofList (writeUserInfo info)) ∧
      IsHost toAscii authority.host.toList ∧
      ∀ port, authority.port = some port → port ≤ 65535 ∧ usual ≠ some port := by
  unfold parseAuthority at h
  simp only [bind, Except.bind, pure, Except.pure] at h
  split at h
  · cases h
  · split at h
    · cases h
    · next host hhost =>
        split at h
        · cases h
        · next port hport =>
            cases h
            refine ⟨⟨_, rfl⟩, ?_, of_parsePort hport⟩
            rw [String.toList_ofList]
            exact isHost_of_parseHost laws hhost

/-- The parts of an authority are those of a base URL. -/
structure IsAuthority (toAscii : ToAscii) (url : Url) : Prop where
  userInfo : ∃ info, url.userInfo = String.ofList (writeUserInfo info)
  host : IsHost toAscii url.host.toList
  port : ∀ port, url.port = some port → port ≤ 65535 ∧ defaultPort? url.scheme ≠ some port

namespace IsAuthority

variable {toAscii : ToAscii} {url : Url}

theorem mem_address (h : IsAuthority toAscii url) {c : Char} (hc : c ∈ url.address) :
    c ∉ ['/', '\\', '?', '#', '@'] ∧ 0x20 < c.toNat := by
  rw [address, List.mem_append] at hc
  rcases hc with hhost | hport
  · exact h.host.chars hhost
  · split at hport
    · rcases List.mem_cons.mp hport with rfl | hdigit
      · decide
      · obtain ⟨d, hd, rfl⟩ := exists_digit_of_mem_toDigits (by decide) hdigit
        have all : ∀ m : Fin 10, Nat.digitChar m ∉ ['/', '\\', '?', '#', '@'] ∧
            0x20 < (Nat.digitChar m).toNat := by decide
        exact all ⟨d, hd⟩
    · cases hport

theorem exists_info (h : IsAuthority toAscii url) :
    ∃ info, (splitUserInfo? url.authority).getD ([], url.authority) = (info, url.address) ∧
      String.ofList (writeUserInfo info) = url.userInfo := by
  have hat : '@' ∉ url.address := fun hmem => (h.mem_address hmem).1 (by decide)
  by_cases hinfo : url.userInfo = ""
  · have hauthority : url.authority = url.address := by
      rw [authority, if_pos hinfo, List.nil_append]
    refine ⟨[], ?_, by rw [hinfo]; rfl⟩
    rw [hauthority, splitUserInfo?_of_notMem hat, Option.getD_none]
  · have hauthority : url.authority = url.userInfo.toList ++ '@' :: url.address := by
      rw [authority, if_neg hinfo, List.append_assoc, List.singleton_append]
    have hsplit : (splitUserInfo? url.authority).getD ([], url.authority) =
        (url.userInfo.toList, url.address) := by
      rw [hauthority, splitUserInfo?_append hat, Option.getD_some]
    refine ⟨url.userInfo.toList, hsplit, ?_⟩
    obtain ⟨info, hwritten⟩ := h.userInfo
    rw [hwritten, String.toList_ofList, writeUserInfo_writeUserInfo]

theorem splitPort_address (h : IsAuthority toAscii url) :
    splitPort false url.address = (url.host.toList, url.port.map (Nat.toDigits 10)) := by
  rw [address, h.host.splitPort]
  cases url.port with
  | none => simp [splitPort]
  | some port => simp [splitPort]

/-- Each part of an authority is found where it was put, and is read as it is written. -/
theorem parseAuthority (h : IsAuthority toAscii url) :
    parseAuthority toAscii (defaultPort? url.scheme) url.authority =
      .ok ⟨url.userInfo, url.host, url.port⟩ := by
  obtain ⟨info, hsplit, hinfo⟩ := h.exists_info
  have hport : parsePort (defaultPort? url.scheme) ((url.port.map (Nat.toDigits 10)).getD []) =
      .ok url.port := by
    cases hport : url.port with
    | none => rfl
    | some port =>
        obtain ⟨hle, husual⟩ := h.port port hport
        exact parsePort_toDigits hle husual
  rw [Url.parseAuthority, hsplit]
  dsimp only
  rw [h.splitPort_address]
  dsimp only
  rw [if_neg (isHost_ne_nil h.host), h.host.parseHost, hport, hinfo]
  simp [bind, Except.bind, pure, Except.pure]

theorem chars (h : IsAuthority toAscii url) {c : Char} (hc : c ∈ url.authority) :
    c ∉ ['/', '\\', '?', '#'] ∧ 0x20 < c.toNat := by
  have hinfo (hc : c ∈ url.userInfo.toList) : c ∉ ['/', '\\', '?', '#'] ∧ 0x20 < c.toNat := by
    obtain ⟨info, hwritten⟩ := h.userInfo
    rw [hwritten, String.toList_ofList] at hc
    rcases mem_writeUserInfo hc with hplain | rfl
    · have hpath : pathSet c = false := by
        rw [userInfoSet, Bool.or_eq_false_iff] at hplain
        exact hplain.1
      refine ⟨fun hmem => ?_, lt_toNat_of_pathSet hpath⟩
      fin_cases hmem
      all_goals cases hplain
    · decide
  have haddress (hc : c ∈ url.address) : c ∉ ['/', '\\', '?', '#'] ∧ 0x20 < c.toNat := by
    obtain ⟨hmarks, hblank⟩ := h.mem_address hc
    refine ⟨fun hmem => hmarks ?_, hblank⟩
    fin_cases hmem
    all_goals decide
  rw [authority, List.mem_append] at hc
  rcases hc with hfront | hback
  · split at hfront
    · cases hfront
    · rw [List.mem_append, List.mem_singleton] at hfront
      rcases hfront with hc | rfl
      · exact hinfo hc
      · decide
  · exact haddress hback

theorem authority_ne_nil (h : IsAuthority toAscii url) : url.authority ≠ [] := by
  simp [authority, address, isHost_ne_nil h.host]

end IsAuthority

/-! ## Paths -/

/-- The name is written in a path as it is read there. -/
structure IsName (name : String) : Prop where
  plain : ∀ c ∈ name.toList, isAscii c = true ∧ pathSet c = false
  separate : ∀ c ∈ name.toList, isSlash c = false
  notDouble : isDoubleDot name.toList = false
  notSingle : isSingleDot name.toList = false

theorem isName_empty : IsName "" where
  plain := by simp
  separate := by simp
  notDouble := by decide
  notSingle := by decide

theorem isName_of_mem_parsePath {s : List Char} {name : String} (h : name ∈ parsePath s) :
    IsName name := by
  cases s with
  | nil =>
      rw [List.mem_singleton.mp h]
      exact isName_empty
  | cons first rest =>
      rcases mem_addSegments h with hnone | rfl | ⟨segment, hsegment, rfl, hdouble, hsingle⟩
      · cases hnone
      · exact isName_empty
      · obtain ⟨part, hpart, rfl⟩ := List.mem_map.mp hsegment
        constructor
        · rw [String.toList_ofList]
          exact fun c => plain_of_mem_encode keepsEscapes_pathSet
        · intro c hc
          rw [String.toList_ofList] at hc
          have hslash (mark : Char) (hmark : isSlash mark = true)
              (hescape : ¬(mark = '%' ∨ mark ∈ "0123456789ABCDEF".toList)) : c ≠ mark := by
            rintro rfl
            apply notMem_encode_of_notMem _ hescape hc
            intro hmem
            rw [not_separator_of_mem_splitOn hpart hmem] at hmark
            cases hmark
          have hplain := hslash '/' rfl (by decide)
          have hback := hslash '\\' rfl (by decide)
          simp [isSlash, hplain, hback]
        · rwa [String.toList_ofList]
        · rwa [String.toList_ofList]

theorem trimPath_trimPath (path : List String) : trimPath (trimPath path) = trimPath path := by
  cases hkept : (path.reverse.dropWhile (· == "")).reverse with
  | nil =>
      have htrimmed : trimPath path = [""] := by rw [trimPath, hkept]
      rw [htrimmed]
      rfl
  | cons first rest =>
      have htrimmed : trimPath path = first :: rest := by rw [trimPath, hkept]
      have hagain : ((first :: rest).reverse.dropWhile (· == "")).reverse = first :: rest := by
        rw [← hkept, List.reverse_reverse, List.dropWhile_idempotent]
      rw [htrimmed, trimPath, hagain]

theorem addSegments_of_forall {segments : List (List Char)}
    (h : ∀ segment ∈ segments, isDoubleDot segment = false ∧ isSingleDot segment = false)
    (path : List String) : addSegments path segments = path ++ segments.map String.ofList := by
  have hstep {segment : List Char} {last : Bool} (path : List String)
      (hsegment : isDoubleDot segment = false ∧ isSingleDot segment = false) :
      addSegment path last segment = path ++ [String.ofList segment] := by
    simp [addSegment, hsegment.1, hsegment.2]
  fun_induction addSegments path segments with
  | case1 path => simp
  | case2 path segment => exact hstep path (h segment List.mem_cons_self)
  | case3 path segment rest _ ih =>
      obtain ⟨hsegment, hrest⟩ := List.forall_mem_cons.mp h
      rw [ih hrest, hstep path hsegment]
      simp

theorem splitOn_writePath {first : String} {rest : List String}
    (h : ∀ name ∈ first :: rest, IsName name) :
    splitOn isSlash (first.toList ++ (writePath rest).toList) =
      (first :: rest).map String.toList := by
  induction rest generalizing first with
  | nil => simpa using splitOn_of_forall (h first List.mem_cons_self).separate
  | cons second rest ih =>
      obtain ⟨hfirst, hrest⟩ := List.forall_mem_cons.mp h
      have htext : (writePath (second :: rest)).toList =
          '/' :: (second.toList ++ (writePath rest).toList) := by
        simp [writePath_cons]
      rw [htext, splitOn_append_cons rfl, splitOn_of_forall hfirst.separate, ih hrest]
      rfl

/-- A written path is read back. -/
theorem parsePath_writePath {path : List String} (hne : path ≠ [])
    (h : ∀ name ∈ path, IsName name) : parsePath (writePath path).toList = path := by
  obtain ⟨first, rest, rfl⟩ := List.exists_cons_of_ne_nil hne
  have htext : (writePath (first :: rest)).toList =
      '/' :: (first.toList ++ (writePath rest).toList) := by
    simp [writePath_cons]
  have hnames : ((first :: rest).map String.toList).map (encode pathSet) =
      (first :: rest).map String.toList := by
    rw [List.map_map]
    exact List.map_congr_left fun name hname => encode_eq_self (h name hname).plain
  have hplain : ∀ segment ∈ (first :: rest).map String.toList,
      isDoubleDot segment = false ∧ isSingleDot segment = false :=
    List.forall_mem_map.mpr fun name hname => ⟨(h name hname).notDouble, (h name hname).notSingle⟩
  rw [htext, parsePath, splitOn_writePath h, hnames, addSegments_of_forall hplain, List.nil_append,
    List.map_map]
  conv_rhs => rw [← List.map_id (first :: rest)]
  exact List.map_congr_left fun name _ => String.ofList_toList

theorem mem_writePath {path : List String} (h : ∀ name ∈ path, IsName name) {c : Char}
    (hc : c ∈ (writePath path).toList) : c = '/' ∨ pathSet c = false := by
  induction path with
  | nil => simp at hc
  | cons first rest ih =>
      obtain ⟨hfirst, hrest⟩ := List.forall_mem_cons.mp h
      simp only [writePath_cons, String.toList_append, List.mem_append] at hc
      rcases hc with (hslash | hname) | hmore
      · exact .inl (by simpa using hslash)
      · exact .inr (hfirst.plain c hname).2
      · exact ih hrest hmore

/-! ## Whole URLs -/

/-- If there is nothing to trim, only tabs and line ends are removed. -/
theorem clean_eq_stripped {s : List Char} (hfirst : ∀ c, s.head? = some c → 0x20 < c.toNat)
    (hlast : ∀ c, s.getLast? = some c → 0x20 < c.toNat) : clean s = stripped s := by
  have hkept {t : List Char} (ht : ∀ c, t.head? = some c → 0x20 < c.toNat) :
      t.dropWhile (·.toNat ≤ 0x20) = t := by
    cases t with
    | nil => rfl
    | cons c t => exact List.dropWhile_cons_of_neg (by simpa using ht c rfl)
  have hreverse : s.reverse.dropWhile (·.toNat ≤ 0x20) = s.reverse :=
    hkept fun c hc => hlast c (by rwa [List.getLast?_eq_head?_reverse])
  rw [clean, hkept hfirst, hreverse, List.reverse_reverse]
  rfl

theorem clean_eq_self {s : List Char} (h : ∀ c ∈ s, 0x20 < c.toNat) : clean s = s := by
  rw [clean_eq_stripped (fun c hc => h c (List.mem_of_head? hc))
    fun c hc => h c (List.mem_of_getLast? hc)]
  refine stripped_of_forall fun c hc => ?_
  have hne (mark : Char) (hmark : mark.toNat ≤ 0x20) : c ≠ mark := by
    rintro rfl
    have hlt := h c hc
    omega
  simp [isIgnored, hne '\t' (by decide), hne '\n' (by decide), hne '\r' (by decide)]

theorem splitScheme?_append {scheme : String} (h : scheme = "http" ∨ scheme = "https")
    (rest : List Char) : splitScheme? (scheme.toList ++ ':' :: rest) = some (scheme, rest) := by
  rcases h with rfl | rfl
  · rfl
  · rfl

/-- The authority stands between two slashes and the next one. -/
theorem parseWeb_append {toAscii : ToAscii} {scheme : String} {authority : List Char}
    {parsed : Authority} (hne : authority ≠ [])
    (hmarks : ∀ c ∈ authority, (isSlash c || c == '?' || c == '#') = false)
    (hparsed : parseAuthority toAscii (defaultPort? scheme) authority = .ok parsed)
    (rest : List Char) :
    parseWeb toAscii scheme ('/' :: '/' :: (authority ++ '/' :: rest)) =
      let (path, more) := splitBefore (fun c => c == '?' || c == '#') ('/' :: rest)
      let (query, fragment) := splitBefore (· == '#') more
      .ok {
        scheme := scheme
        userInfo := parsed.userInfo
        host := parsed.host
        port := parsed.port
        path := parsePath path
        query := query.tail?.map fun query => String.ofList (encode querySet query)
        fragment := fragment.tail?.map fun text => String.ofList (encode fragmentSet text) } := by
  have hslashes : ('/' :: '/' :: (authority ++ '/' :: rest)).dropWhile isSlash =
      authority ++ '/' :: rest := by
    obtain ⟨c, more, hc⟩ := List.exists_cons_of_ne_nil hne
    have hmark := hmarks c (hc ▸ List.mem_cons_self)
    simp only [Bool.or_eq_false_iff] at hmark
    have hslash : isSlash '/' = true := rfl
    rw [List.dropWhile_cons_of_pos hslash, List.dropWhile_cons_of_pos hslash, hc, List.cons_append,
      List.dropWhile_cons_of_neg (by simp [hmark.1.1])]
  rw [parseWeb, hslashes, splitBefore_append hmarks rfl]
  dsimp only
  rw [hparsed]
  rfl

theorem eq_of_parts {url : Url} {path : List String} (hpath : path = url.path)
    (hquery : url.query = none) (hfragment : url.fragment = none) :
    { url with path := path, query := none, fragment := none } = url := by
  subst hpath
  obtain ⟨scheme, userInfo, host, port, path, query, fragment⟩ := url
  subst hquery hfragment
  rfl

/-- The URL is written as a base URL is. -/
structure IsBase (toAscii : ToAscii) (url : Url) : Prop extends IsAuthority toAscii url where
  scheme : Config.isServed url.scheme = true
  names : ∀ name ∈ url.path, IsName name
  trimmed : ∃ path, url.path = trimPath path
  query : url.query = none
  fragment : url.fragment = none

namespace IsBase

variable {toAscii : ToAscii} {url : Url}

theorem scheme_cases (h : IsBase toAscii url) : url.scheme = "http" ∨ url.scheme = "https" := by
  simpa [Config.isServed] using h.scheme

theorem path_ne_nil (h : IsBase toAscii url) : url.path ≠ [] := by
  obtain ⟨path, hpath⟩ := h.trimmed
  rw [hpath]
  exact trimPath_ne_nil path

theorem toList_text (h : IsBase toAscii url) :
    url.text.toList =
      url.scheme.toList ++ ':' :: '/' :: '/' :: (url.authority ++ (writePath url.path).toList) := by
  have hinfo : (if url.userInfo = "" then "" else url.userInfo ++ "@").toList =
      if url.userInfo = "" then [] else url.userInfo.toList ++ ['@'] := by
    split <;> simp
  cases hport : url.port with
  | none =>
      simp [text, target, origin, pathText, h.query, h.fragment, authority, address, hinfo, hport]
  | some port =>
      simp [text, target, origin, pathText, h.query, h.fragment, authority, address, hinfo, hport,
        Text.writeInt]

theorem chars (h : IsBase toAscii url) {c : Char} (hc : c ∈ url.text.toList) : 0x20 < c.toNat := by
  have hscheme (hmem : c ∈ url.scheme.toList) : 0x20 < c.toNat := by
    rcases h.scheme_cases with heq | heq
    all_goals
      rw [heq] at hmem
      fin_cases hmem
      all_goals decide
  rw [h.toList_text] at hc
  simp only [List.mem_append, List.mem_cons] at hc
  rcases hc with hmem | rfl | rfl | rfl | hauthority | hpath
  · exact hscheme hmem
  · decide
  · decide
  · decide
  · exact (h.toIsAuthority.chars hauthority).2
  · rcases mem_writePath h.names hpath with rfl | hplain
    · decide
    · exact lt_toNat_of_pathSet hplain

theorem parseWeb (h : IsBase toAscii url) :
    parseWeb toAscii url.scheme ('/' :: '/' :: (url.authority ++ (writePath url.path).toList)) =
      .ok url := by
  obtain ⟨first, rest, hpath⟩ := List.exists_cons_of_ne_nil h.path_ne_nil
  have htext : (writePath url.path).toList =
      '/' :: (first.toList ++ (writePath rest).toList) := by
    simp [hpath, writePath_cons]
  have hmarks : ∀ c ∈ url.authority, (isSlash c || c == '?' || c == '#') = false := by
    intro c hc
    have hmarks := (h.toIsAuthority.chars hc).1
    simp only [List.mem_cons, not_or] at hmarks
    simp [isSlash, hmarks]
  have hrest : ∀ c ∈ (writePath url.path).toList, (c == '?' || c == '#') = false := by
    intro c hc
    rcases mem_writePath h.names hc with rfl | hplain
    · decide
    · have hne (mark : Char) (hmark : pathSet mark = true) : c ≠ mark := by
        rintro rfl
        rw [hplain] at hmark
        cases hmark
      simp [hne '?' rfl, hne '#' rfl]
  rw [htext, parseWeb_append h.toIsAuthority.authority_ne_nil hmarks h.toIsAuthority.parseAuthority,
    ← htext, splitBefore_of_forall hrest]
  dsimp only
  rw [parsePath_writePath h.path_ne_nil h.names]
  exact congrArg Except.ok (eq_of_parts rfl h.query h.fragment)

theorem parse (h : IsBase toAscii url) : parse toAscii url.text = .ok (.url url) := by
  have hport : (defaultPort? url.scheme).isSome = true := by
    rcases h.scheme_cases with heq | heq <;> rw [heq] <;> rfl
  rw [Url.parse, clean_eq_self fun c => h.chars, h.toList_text,
    splitScheme?_append h.scheme_cases]
  dsimp only
  rw [if_pos hport, h.parseWeb]
  rfl

/-- A base URL is read as it is written. -/
theorem parseBaseUrl (h : IsBase toAscii url) :
    Config.parseBaseUrl url.text toAscii = .ok url := by
  have hpath : trimPath url.path = url.path := by
    obtain ⟨path, hpath⟩ := h.trimmed
    rw [hpath, trimPath_trimPath]
  rw [Config.parseBaseUrl, h.parse]
  dsimp only
  rw [if_pos h.scheme, eq_of_parts hpath h.query h.fragment]

end IsBase

theorem isBase_of_parse {toAscii : ToAscii} (laws : toAscii.Lawful) {text : String} {url : Url}
    (h : parse toAscii text = .ok (.url url)) (hserved : Config.isServed url.scheme = true) :
    IsBase toAscii { url with path := trimPath url.path, query := none, fragment := none } := by
  obtain ⟨scheme, rest, hweb⟩ := exists_parseWeb_of_parse h
  obtain ⟨hscheme, ⟨_, authority, hauthority, hinfo, hhost, hport⟩, path, hpath⟩ := of_parseWeb hweb
  obtain ⟨hwritten, hishost, hrange⟩ := of_parseAuthority laws hauthority
  subst hscheme
  constructor
  · exact ⟨hinfo ▸ hwritten, hhost ▸ hishost, hport ▸ hrange⟩
  · exact hserved
  · intro name hname
    rcases mem_of_mem_trimPath hname with hmem | rfl
    · exact isName_of_mem_parsePath (hpath ▸ hmem)
    · exact isName_empty
  · exact ⟨_, rfl⟩
  · rfl
  · rfl

end Url

namespace Config

variable {toAscii : Url.ToAscii}

theorem isBase_of_parseBaseUrl (laws : toAscii.Lawful) {text : String} {base : Url}
    (h : parseBaseUrl text toAscii = .ok base) : Url.IsBase toAscii base := by
  unfold parseBaseUrl at h
  split at h
  · cases h
  · cases h
  · next url hparse =>
      split at h
      · next hserved =>
          cases h
          exact Url.isBase_of_parse laws hparse hserved
      · cases h

/-- The path of a base URL is the root, or no slash is at its end. -/
theorem pathText_of_parseBaseUrl {text : String} {base : Url}
    (h : parseBaseUrl text toAscii = .ok base) :
    base.pathText = "/" ∨ base.pathText.toList.getLast? ≠ some '/' := by
  obtain ⟨-, -, hne, htrimmed⟩ := parts_of_parseBaseUrl h
  by_cases hroot : base.path = [""]
  · left
    rw [Url.pathText, hroot]
    rfl
  · right
    intro hlast
    have hdirectory := Url.toList_writePath_directory hne (slashless_of_parseBaseUrl h) htrimmed
    rw [Url.directory_of_ne hroot] at hdirectory
    rw [Url.pathText, hdirectory, Text.dropEndWhile, List.getLast?_reverse] at hlast
    cases Text.head_dropWhile hlast

/-- Every base URL that is accepted, with any lawful conversion of domain names, is a web address
without query and fragment, whose path is the root or does not end with a slash, and its own text is
accepted as the same base URL. -/
theorem ofUrl_text (laws : toAscii.Lawful) {text : String} {config : Config}
    (h : ofUrl text toAscii = .ok config) :
    let base := config.baseUrl
    (base.scheme = "http" ∨ base.scheme = "https") ∧ base.query = none ∧ base.fragment = none ∧
      (base.pathText = "/" ∨ base.pathText.toList.getLast? ≠ some '/') ∧
      ofUrl base.text toAscii = .ok config := by
  intro base
  obtain ⟨url, hparsed, rfl⟩ := map_eq_ok_iff.mp h
  have hbase : Url.IsBase toAscii url := isBase_of_parseBaseUrl laws hparsed
  refine ⟨hbase.scheme_cases, hbase.query, hbase.fragment, pathText_of_parseBaseUrl hparsed, ?_⟩
  rw [ofUrl, hbase.parseBaseUrl, map_ok]

/-- Normal forms are reached from texts with a password, an international name with an escape or an
address that is written in a shorter way, a port, dot segments, a drive and empty names at the
end. -/
theorem ofUrl_text_rewritten :
    let toAscii := Url.ToAscii.known [("Bücher.Example", "xn--bcher-kva.example")]
    let named := "http://B%C3%BCcher.Example:80/r//"
    let normalNamed := "http://xn--bcher-kva.example/r"
    let numbered := " HTTPS://me:p%20w@@[0:0:0:1::FFFF]:8443/a/../C:/../x%2fy /.//?q#f\t"
    let normalNumbered := "https://me:p%20w%40@[::1:0:0:0:ffff]:8443/C:/x%2fy%20"
    toAscii.Lawful ∧
      ∀ pair ∈ [(named, normalNamed), (numbered, normalNumbered)],
        ∃ config, ofUrl pair.1 toAscii = .ok config ∧ config.baseUrl.text = pair.2 ∧
          ofUrl pair.2 toAscii = .ok config := by
  intro toAscii named normalNamed numbered normalNumbered
  have laws : toAscii.Lawful := Url.ToAscii.known_lawful (by decide)
  have hagain {text normal : String}
      (h : ((ofUrl text toAscii).map (·.baseUrl.text)).toOption = some normal) :
      ∃ config, ofUrl text toAscii = .ok config ∧ config.baseUrl.text = normal ∧
        ofUrl normal toAscii = .ok config := by
    cases hconfig : ofUrl text toAscii with
    | error e =>
        rw [hconfig] at h
        cases h
    | ok config =>
        rw [hconfig] at h
        have hnormal : config.baseUrl.text = normal := Option.some_inj.mp h
        obtain ⟨-, -, -, -, hread⟩ := ofUrl_text laws hconfig
        exact ⟨config, rfl, hnormal, hnormal ▸ hread⟩
  refine ⟨laws, List.forall_mem_cons.mpr ⟨hagain ?_, List.forall_mem_singleton.mpr (hagain ?_)⟩⟩
  · decide +kernel
  · decide +kernel

end Config

end DataCatalog
