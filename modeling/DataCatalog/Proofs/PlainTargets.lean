import DataCatalog.Proofs.Targets

/-!
# Plain targets are sent as they are

The path of a base URL is made of names without slashes, and none of them is empty but that of the
root; its text without a slash at the end is therefore the text of the names to which those of a
target are added.  A plain target adds one name for each of its segments.  Such a name holds nothing
that ends a name in a URL, and decoding it gives back the segment.
-/

namespace DataCatalog

namespace Text

theorem dropEndWhile_eq_self {p : Char → Bool} {s : List Char}
    (h : ∀ c, s.getLast? = some c → p c = false) : dropEndWhile p s = s := by
  have hhead : s.reverse.dropWhile p = s.reverse := by
    cases hs : s.reverse with
    | nil => rfl
    | cons c rest =>
        have hlast : s.getLast? = some c := by
          rw [List.getLast?_eq_head?_reverse, hs, List.head?_cons]
        rw [List.dropWhile_cons_of_neg (by simp [h c hlast])]
  rw [dropEndWhile, hhead, List.reverse_reverse]

end Text

namespace Url

/-! ## Names in the path of a base URL -/

theorem parentPath_sublist (path : List String) : (parentPath path).Sublist path := by
  unfold parentPath
  split
  · split
    · exact .refl path
    · exact path.dropLast_sublist
  · exact List.nil_sublist path

theorem mem_addSegment {path : List String} {last : Bool} {segment : List Char} {name : String}
    (h : name ∈ addSegment path last segment) :
    name ∈ path ∨ name = "" ∨
      name = String.ofList segment ∧ isDoubleDot segment = false ∧ isSingleDot segment = false := by
  have hempty {base : List String} (hbase : name ∈ base ++ if last then [""] else []) :
      name ∈ base ∨ name = "" := by
    cases last with
    | false => exact .inl (by simpa using hbase)
    | true => simpa using hbase
  unfold addSegment at h
  split at h
  · exact (hempty h).imp ((parentPath_sublist path).subset ·) .inl
  · next hdouble =>
      split at h
      · exact (hempty h).imp id .inl
      · next hsingle =>
          rw [Bool.not_eq_true] at hdouble hsingle
          rw [List.mem_append, List.mem_singleton] at h
          exact h.imp id fun hname => .inr ⟨hname, hdouble, hsingle⟩

/-- Every name of a path is one of the segments, none of which is a dot segment, or it is empty. -/
theorem mem_addSegments {path : List String} {segments : List (List Char)} {name : String}
    (h : name ∈ addSegments path segments) :
    name ∈ path ∨ name = "" ∨
      ∃ segment ∈ segments, name = String.ofList segment ∧ isDoubleDot segment = false ∧
        isSingleDot segment = false := by
  fun_induction addSegments path segments with
  | case1 path => exact .inl h
  | case2 path segment =>
      exact (mem_addSegment h).imp id fun hnew => hnew.imp id fun hname => ⟨segment, by simp, hname⟩
  | case3 path segment rest _ ih =>
      rcases ih h with hfirst | hempty | ⟨other, hother, hname⟩
      · exact (mem_addSegment hfirst).imp id fun hnew =>
          hnew.imp id fun hname => ⟨segment, List.mem_cons_self, hname⟩
      · exact .inr (.inl hempty)
      · exact .inr (.inr ⟨other, List.mem_cons_of_mem _ hother, hname⟩)

theorem mem_of_mem_trimPath {path : List String} {name : String} (h : name ∈ trimPath path) :
    name ∈ path ∨ name = "" := by
  unfold trimPath at h
  split at h
  · exact .inr (List.mem_singleton.mp h)
  · have hkept := (List.dropWhile_sublist _).subset (List.mem_reverse.mp h)
    exact .inl (List.mem_reverse.mp hkept)

/-- No name of the path has a slash in it. -/
def Slashless (path : List String) : Prop :=
  ∀ name ∈ path, '/' ∉ name.toList

theorem Slashless.append {path more : List String} (hpath : Slashless path)
    (hmore : Slashless more) : Slashless (path ++ more) :=
  List.forall_mem_append.mpr ⟨hpath, hmore⟩

theorem slashless_singleton {name : String} (h : '/' ∉ name.toList) : Slashless [name] :=
  List.forall_mem_singleton.mpr h

theorem Slashless.addSegment {path : List String} (hpath : Slashless path) (last : Bool)
    {segment : List Char} (hsegment : '/' ∉ segment) :
    Slashless (addSegment path last segment) := by
  intro name hname
  rcases mem_addSegment hname with hold | rfl | ⟨rfl, -⟩
  · exact hpath name hold
  · decide
  · rwa [String.toList_ofList]

theorem slashless_parsePath (s : List Char) : Slashless (parsePath s) := by
  intro name hname
  cases s with
  | nil =>
      rw [List.mem_singleton.mp hname]
      decide
  | cons first rest =>
      rcases mem_addSegments hname with hnone | rfl | ⟨segment, hsegment, rfl, -⟩
      · cases hnone
      · decide
      · obtain ⟨part, hpart, rfl⟩ := List.mem_map.mp hsegment
        rw [String.toList_ofList]
        apply notMem_encode_of_notMem _ (by decide)
        intro hslash
        exact absurd (not_separator_of_mem_splitOn hpart hslash) (by decide)

theorem Slashless.trimPath {path : List String} (h : Slashless path) :
    Slashless (trimPath path) := by
  intro name hname
  rcases mem_of_mem_trimPath hname with hold | rfl
  · exact h name hold
  · decide

variable {toAscii : ToAscii}

theorem of_parseWeb {scheme : String} {s : List Char} {url : Url}
    (h : parseWeb toAscii scheme s = .ok url) :
    url.scheme = scheme ∧
      (∃ text authority, parseAuthority toAscii (defaultPort? scheme) text = .ok authority ∧
        url.userInfo = authority.userInfo ∧ url.host = authority.host ∧
        url.port = authority.port) ∧
      ∃ path, url.path = parsePath path := by
  unfold parseWeb at h
  simp only [bind, Except.bind] at h
  split at h
  · cases h
  · next authority hauthority =>
      cases h
      exact ⟨rfl, ⟨_, authority, hauthority, rfl, rfl, rfl⟩, _, rfl⟩

/-- Only web addresses are read as URLs with a host. -/
theorem exists_parseWeb_of_parse {text : String} {url : Url}
    (h : parse toAscii text = .ok (.url url)) :
    ∃ scheme rest, parseWeb toAscii scheme rest = .ok url := by
  unfold parse at h
  split at h
  · cases h
  · next scheme rest _ =>
      split at h
      · cases hweb : parseWeb toAscii scheme rest with
        | error fault => simp [hweb, bind, Except.bind] at h
        | ok parsed =>
            simp [hweb, bind, Except.bind, pure, Except.pure] at h
            exact ⟨scheme, rest, h ▸ hweb⟩
      · split at h
        · cases hfile : checkFile toAscii rest <;>
            simp [hfile, bind, Except.bind, pure, Except.pure] at h
        · cases hother : checkOther rest <;>
            simp [hother, bind, Except.bind, pure, Except.pure] at h

end Url

theorem Config.slashless_of_parseBaseUrl {text : String} {base : Url} {toAscii : Url.ToAscii}
    (h : parseBaseUrl text toAscii = .ok base) : Url.Slashless base.path := by
  unfold parseBaseUrl at h
  split at h
  · cases h
  · cases h
  · next url hparse =>
      split at h
      · cases h
        obtain ⟨scheme, rest, hweb⟩ := Url.exists_parseWeb_of_parse hparse
        obtain ⟨-, -, path, hpath⟩ := Url.of_parseWeb hweb
        exact (hpath ▸ Url.slashless_parsePath path).trimPath
      · cases h

namespace Url

/-- The path to which names are added is that of the URL without a slash at its end. -/
theorem toList_writePath_directory {path : List String} (hne : path ≠ [])
    (hslashless : Slashless path) (htrimmed : popEmpty path = path) :
    (writePath (directory path)).toList =
      Text.dropEndWhile (· == '/') (writePath path).toList := by
  by_cases hroot : path = [""]
  · rw [hroot]
    decide
  have hlast : path.getLast hne ≠ "" := by
    intro hempty
    have hpop : popEmpty path = path.dropLast :=
      if_pos ⟨hroot, by rw [List.getLast?_eq_some_getLast hne, hempty]⟩
    have hlength := congrArg List.length (hpop.symm.trans htrimmed)
    have hpos := List.length_pos_of_ne_nil hne
    rw [List.length_dropLast] at hlength
    omega
  have htext : (writePath path).toList =
      (writePath path.dropLast).toList ++ '/' :: (path.getLast hne).toList := by
    conv_lhs => rw [← List.dropLast_append_getLast hne]
    simp [writePath_append, writePath_cons]
  rw [directory_of_ne hroot]
  refine (Text.dropEndWhile_eq_self fun c hc => ?_).symm
  have hname : (path.getLast hne).toList ≠ [] := by simpa using hlast
  have hmem : c ∈ (path.getLast hne).toList := by
    rw [htext, List.getLast?_append_of_ne_nil _ (List.cons_ne_nil _ _),
      List.getLast?_cons_of_ne_nil hname] at hc
    exact List.mem_of_getLast? hc
  have hslash : c ≠ '/' := by
    rintro rfl
    exact hslashless _ (List.getLast_mem hne) hmem
  simpa using hslash

theorem decode_written (name : List Char) : decode (written name).toList = utf8 name := by
  rw [written, String.toList_ofList, decode_encode segmentSet_percent]

/-- The characters that end a name in a URL are not in a written name. -/
theorem notMem_written {c : Char} (hc : c ∈ ['/', '?', '#']) (name : List Char) :
    c ∉ (written name).toList := by
  rw [written, String.toList_ofList]
  fin_cases hc
  all_goals exact notMem_encode rfl (by decide) name

end Url

/-- A plain target is sent as it is: behind the path of the base URL and the name of the endpoint
stands one name for each segment of the target, and decoding it gives back the segment. -/
theorem endpointUrl_of_isPlain {text : String} {base : Url} {toAscii : Url.ToAscii}
    (hbase : Config.parseBaseUrl text toAscii = .ok base) {endpoint : String}
    (hendpoint : endpoint ++ ".json" ∈ Operation.fileNames) {target : String}
    (hplain : Url.IsPlain (namedPath target)) :
    let url := endpointUrl base endpoint (normalizeTarget target)
    (∃ names : List String,
        url.pathText = String.ofList (Text.dropEndWhile (· == '/') base.pathText.toList) ++ "/" ++
          endpoint ++ ".json" ++ Url.writePath names ∧
        names.map (Url.decode ·.toList) =
          (Url.splitOn (· == '/') (namedPath target)).map Url.utf8 ∧
        ∀ name ∈ names, ∀ c ∈ ['/', '?', '#'], c ∉ name.toList) ∧
      url.query = none ∧ url.fragment = none ∧
      ∀ (client : Client) (service : Service) (operation : Operation) (request : Request)
        (outcome : Outcome), client.config.baseUrl = base → operation.endpoint = endpoint →
        operation.address = normalizeTarget target →
        (request, outcome) ∈ (client.perform service operation).log →
        request.url = { url with query := operation.query } := by
  intro url
  obtain ⟨hquery, hfragment, hne, htrimmed⟩ := Config.parts_of_parseBaseUrl hbase
  have hurl : url = _ := endpointUrl_eq hbase hendpoint (normalizeTarget target)
  have hpath : url.path = Url.directory base.path ++ [endpoint ++ ".json"] ++
      (Url.splitOn (· == '/') (namedPath target)).map Url.written := by
    obtain ⟨hname, -⟩ := Url.ordinary_of_mem_fileNames hendpoint
    rw [hurl, targetSegments_normalizeTarget, Url.foldl_appendSegment_of_settled (by simp)
      (by simp [List.append_eq_singleton_iff, hname]) (Url.settled_of_isPlain hplain),
      Url.names_of_isPlain hplain]
  refine ⟨⟨(Url.splitOn (· == '/') (namedPath target)).map Url.written, ?_, ?_, ?_⟩, ?_, ?_, ?_⟩
  · have hdirectory := Url.toList_writePath_directory hne
      (Config.slashless_of_parseBaseUrl hbase) htrimmed
    rw [Url.pathText, hpath, Url.writePath_append, Url.writePath_append, Url.writePath_cons,
      Url.writePath_nil, Url.pathText, ← hdirectory, String.ofList_toList]
    simp only [String.append_assoc, String.append_empty]
  · rw [List.map_map]
    exact List.map_congr_left fun segment _ => Url.decode_written segment
  · intro name hname c hc
    obtain ⟨segment, -, rfl⟩ := List.mem_map.mp hname
    exact Url.notMem_written hc segment
  · rw [hurl, hquery]
  · rw [hurl, hfragment]
  · rintro client service operation request outcome rfl rfl haddress hsent
    rw [Client.url_of_sent ⟨text, toAscii, hbase⟩ hsent, haddress, hurl, Operation.fileName]

/-- Below the root, with characters that mean something in a URL and with empty names. -/
theorem endpointUrl_of_isPlain_reserved :
    let base : Url := ⟨"http", "", "localhost", some 8080, [""], none, none⟩
    let operation : Operation := .lookup " //50% ?a#b;c\\d+é//e/\n" ⟨none, none⟩
    ∃ request names,
      (request, .hungUp) ∈ (Client.perform ⟨⟨base, 30000⟩, {}⟩ (fun _ => .hungUp) operation).log ∧
        request.url.pathText = "/path.json" ++ Url.writePath names ∧
        names.map (Url.decode ·.toList) =
          ["50% ?a#b;c\\d+é".toList, [], ['e'], []].map Url.utf8 ∧
        request.url.query = none ∧ request.url.fragment = none := by
  intro base operation
  have hbase : Config.parseBaseUrl "http://localhost:8080/" = .ok base := rfl
  have hplain : Url.IsPlain (namedPath " //50% ?a#b;c\\d+é//e/\n") := by decide
  have haddress : operation.address = normalizeTarget " //50% ?a#b;c\\d+é//e/\n" := by decide
  have hsegments : Url.splitOn (· == '/') (namedPath " //50% ?a#b;c\\d+é//e/\n") =
      ["50% ?a#b;c\\d+é".toList, [], ['e'], []] := by decide
  have hsent : (_, .hungUp) ∈
      (Client.perform ⟨⟨base, 30000⟩, {}⟩ (fun _ => .hungUp) operation).log :=
    List.mem_singleton_self _
  obtain ⟨⟨names, hpath, hnames, -⟩, hquery, hfragment, hrequest⟩ :=
    endpointUrl_of_isPlain hbase (by decide : "path" ++ ".json" ∈ Operation.fileNames) hplain
  have hurl := hrequest _ _ operation _ _ rfl rfl haddress hsent
  have hroot : String.ofList (Text.dropEndWhile (· == '/') base.pathText.toList) ++ "/" ++ "path" ++
      ".json" = "/path.json" := by decide
  rw [hsegments] at hnames
  rw [hroot] at hpath
  exact ⟨_, names, hsent, (congrArg Url.pathText hurl).trans hpath, hnames,
    congrArg Url.query hurl, (congrArg Url.fragment hurl).trans hfragment⟩

end DataCatalog
