import DataCatalog.Proofs.PercentEncoding
import DataCatalog.Proofs.Requests

/-!
# Where requests go

The path of a request is that of the base URL, then the name of the endpoint, then the segments of
the target.  Most segments become one name each, with nothing in it that the path gives a meaning
to.  Three rules of URLs stand out: a segment that is a dot segment is left out, tabs and line ends
are removed from a segment, and a segment that is a dot segment only after that acts as one.

By the last rule a target can leave its endpoint, but only with the first segment that is not left
out: once a segment stands after the endpoint, a dot segment takes away no more than what stands
there.  By the first two rules several targets have one address; targets without dot segments, tabs
and line ends have addresses of their own.
-/

namespace DataCatalog

namespace Url

/-! ## Texts of paths -/

@[simp] theorem writePath_nil : writePath [] = "" := rfl

theorem writePath_cons (segment : String) (path : List String) :
    writePath (segment :: path) = "/" ++ segment ++ writePath path :=
  String.join_cons

theorem writePath_append (path more : List String) :
    writePath (path ++ more) = writePath path ++ writePath more := by
  rw [writePath, List.map_append, String.join_append]
  rfl

/-- A path goes on with a slash or not at all. -/
theorem writePath_cases (path : List String) :
    writePath path = "" ∨ ∃ more, writePath path = "/" ++ more := by
  cases path with
  | nil => exact .inl rfl
  | cons segment path =>
      refine .inr ⟨segment ++ writePath path, ?_⟩
      rw [writePath_cons, String.append_assoc]

theorem eq_slash_of_writePath_eq_cons {path : List String} {c : Char} {rest : List Char}
    (h : (writePath path).toList = c :: rest) : c = '/' := by
  rcases writePath_cases path with hempty | ⟨more, hslash⟩
  · simp [hempty] at h
  · rw [hslash] at h
    simpa using (congrArg List.head? h).symm

/-- A name without slashes ends where the next slash is. -/
theorem eq_of_append_eq {s t : List Char} {path other : List String} (hs : '/' ∉ s) (ht : '/' ∉ t)
    (h : s ++ (writePath path).toList = t ++ (writePath other).toList) : s = t := by
  have hnil {a b : List Char} {path : List String} {rest : List Char} (ha : '/' ∉ b ++ a)
      (hrest : (writePath path).toList = a ++ rest) : a = [] := by
    cases a with
    | nil => rfl
    | cons c a =>
        have hc := eq_slash_of_writePath_eq_cons hrest
        simp [hc] at ha
  rcases List.append_eq_append_iff.mp h with ⟨a, rfl, hrest⟩ | ⟨a, rfl, hrest⟩
  · rw [hnil ht hrest, List.append_nil]
  · rw [hnil hs hrest, List.append_nil]

/-- Names without slashes can be told from the text of their path. -/
theorem writePath_injective {path other : List String}
    (hpath : ∀ segment ∈ path, '/' ∉ segment.toList)
    (hother : ∀ segment ∈ other, '/' ∉ segment.toList)
    (h : writePath path = writePath other) : path = other := by
  induction path generalizing other with
  | nil =>
      cases other with
      | nil => rfl
      | cons segment other => simpa [writePath_cons] using congrArg String.toList h
  | cons segment path ih =>
      cases other with
      | nil => simpa [writePath_cons] using congrArg String.toList h
      | cons segment' other =>
          rw [List.forall_mem_cons] at hpath hother
          have hchars : segment.toList ++ (writePath path).toList =
              segment'.toList ++ (writePath other).toList := by
            simpa [writePath_cons] using congrArg String.toList h
          have hsegment := eq_of_append_eq hpath.1 hother.1 hchars
          rw [hsegment] at hchars
          have hrest := String.toList_inj.mp (List.append_cancel_left hchars)
          rw [String.toList_inj.mp hsegment, ih hpath.2 hother.2 hrest]

/-! ## Adding segments -/

/-- The segment is left out when it is added to a path. -/
def IsDot (segment : List Char) : Prop :=
  segment = ['.'] ∨ segment = ['.', '.']

instance (segment : List Char) : Decidable (IsDot segment) :=
  inferInstanceAs (Decidable (segment = ['.'] ∨ segment = ['.', '.']))

/-- The segment without tabs and line ends. -/
def stripped (segment : List Char) : List Char :=
  segment.filter (!isIgnored ·)

theorem stripped_of_forall {segment : List Char} (h : ∀ c ∈ segment, isIgnored c = false) :
    stripped segment = segment :=
  List.filter_eq_self.mpr fun c hc => by simpa using h c hc

/-- The path to which a segment is added: the root has no name of its own. -/
def directory (path : List String) : List String :=
  if path = [""] then [] else path

theorem directory_of_ne {path : List String} (h : path ≠ [""]) : directory path = path :=
  if_neg h

theorem directory_concat (root : List String) {name : String} (h : name ≠ "") :
    directory (root ++ [name]) = root ++ [name] := by
  apply directory_of_ne
  simp [List.append_eq_singleton_iff, h]

/-- The segment of a path for a name. -/
def written (name : List Char) : String :=
  String.ofList (encode segmentSet name)

theorem appendSegment_of_isDot {segment : List Char} (h : IsDot segment) (path : List String) :
    appendSegment path segment = path :=
  if_pos h

theorem appendSegment_of_not_isDot {segment : List Char} (h : ¬IsDot segment)
    (path : List String) :
    appendSegment path segment =
      if stripped segment = ['.', '.'] then parentPath (directory path) ++ [""]
      else if stripped segment = ['.'] then directory path ++ [""]
      else directory path ++ [written (stripped segment)] := by
  have hstep : appendSegment path segment =
      addSegment (directory path) true (encode segmentSet (stripped segment)) := if_neg h
  rw [hstep, addSegment]
  simp only [isDoubleDot_encode_iff, isSingleDot_encode_iff, if_true]
  rfl

theorem parentPath_append (root : List String) {path : List String} (h : path ≠ []) :
    parentPath (root ++ path) = root ++ parentPath path := by
  have hlast : (root ++ path).getLast? = path.getLast? := List.getLast?_append_of_ne_nil root h
  simp only [parentPath, hlast, List.getLast?_eq_some_getLast h]
  split
  · rfl
  · exact List.dropLast_append_of_ne_nil h

/-- The place above a path of one name or more, and a name below it, are such a path again. -/
theorem parentPath_cons (first : String) (more : List String) :
    ∃ first' more', parentPath (first :: more) ++ [""] = first' :: more' ∧
      (first = "" → first' = "") := by
  cases more with
  | nil =>
      by_cases hdrive : isDriveLetter first.toList = true
      · exact ⟨first, [""], by simp [parentPath, hdrive], id⟩
      · exact ⟨"", [], by simp [parentPath, hdrive], fun _ => rfl⟩
  | cons second more =>
      have hparent : parentPath (first :: second :: more) = first :: parentPath (second :: more) :=
        parentPath_append [first] (List.cons_ne_nil second more)
      exact ⟨first, parentPath (second :: more) ++ [""], by rw [hparent, List.cons_append], id⟩

/-- With a name after the root, a path stays below the root, and an empty name stays empty. -/
theorem appendSegment_below {root : List String} (hroot : root ≠ []) (first : String)
    (more : List String) (segment : List Char) :
    ∃ first' more', appendSegment (root ++ first :: more) segment = root ++ first' :: more' ∧
      (first = "" → first' = "") := by
  have hdirectory : directory (root ++ first :: more) = root ++ first :: more := by
    apply if_neg
    intro h
    have hlength := congrArg List.length h
    have hpos := List.length_pos_of_ne_nil hroot
    simp at hlength
    omega
  by_cases hdot : IsDot segment
  · rw [appendSegment_of_isDot hdot]
    exact ⟨first, more, rfl, id⟩
  rw [appendSegment_of_not_isDot hdot, hdirectory]
  split
  · obtain ⟨first', more', hparent, hempty⟩ := parentPath_cons first more
    refine ⟨first', more', ?_, hempty⟩
    rw [parentPath_append root (List.cons_ne_nil first more), List.append_assoc, hparent]
  · split
    · exact ⟨first, more ++ [""], by simp, id⟩
    · exact ⟨first, more ++ [written (stripped segment)], by simp, id⟩

theorem foldl_appendSegment_below {root : List String} (hroot : root ≠ [])
    (segments : List (List Char)) (first : String) (more : List String) :
    ∃ first' more', segments.foldl appendSegment (root ++ first :: more) = root ++ first' :: more' ∧
      (first = "" → first' = "") := by
  induction segments generalizing first more with
  | nil => exact ⟨first, more, rfl, id⟩
  | cons segment segments ih =>
      obtain ⟨first', more', hstep, hempty⟩ := appendSegment_below hroot first more segment
      obtain ⟨first'', more'', hrun, hempty'⟩ := ih first' more'
      refine ⟨first'', more'', ?_, fun h => hempty' (hempty h)⟩
      rw [List.foldl_cons, hstep, hrun]

/-! ## Leaving the endpoint -/

/-- The first segment that is not left out is `..` with tabs or line ends in it. -/
def Climbs : List (List Char) → Prop
  | [] => False
  | segment :: rest => if IsDot segment then Climbs rest else stripped segment = ['.', '.']

instance decidableClimbs : (segments : List (List Char)) → Decidable (Climbs segments)
  | [] => inferInstanceAs (Decidable False)
  | segment :: rest =>
    have := decidableClimbs rest
    inferInstanceAs (Decidable (if IsDot segment then Climbs rest else stripped segment = ['.', '.']))

variable {root : List String} {endpoint : String}

/-- Unless the first segment climbs, all of them stay below the endpoint. -/
theorem foldl_appendSegment_of_not_climbs (hendpoint : endpoint ≠ "")
    {segments : List (List Char)} (h : ¬Climbs segments) :
    ∃ more, segments.foldl appendSegment (root ++ [endpoint]) = root ++ [endpoint] ++ more := by
  have hroot : root ++ [endpoint] ≠ [] := by simp
  have hdirectory := directory_concat root hendpoint
  induction segments with
  | nil => exact ⟨[], (List.append_nil _).symm⟩
  | cons segment rest ih =>
      rw [List.foldl_cons]
      by_cases hdot : IsDot segment
      · rw [appendSegment_of_isDot hdot]
        exact ih (by simpa [Climbs, hdot] using h)
      · have hstep : ∃ first, appendSegment (root ++ [endpoint]) segment =
            root ++ [endpoint] ++ [first] := by
          have hstripped : stripped segment ≠ ['.', '.'] := by simpa [Climbs, hdot] using h
          rw [appendSegment_of_not_isDot hdot, hdirectory, if_neg hstripped]
          split
          · exact ⟨_, rfl⟩
          · exact ⟨_, rfl⟩
        obtain ⟨first, hfirst⟩ := hstep
        obtain ⟨first', more, hrun, -⟩ := foldl_appendSegment_below hroot rest first []
        exact ⟨first' :: more, by rw [hfirst, hrun]⟩

/-- The segments behind the first one that is not left out. -/
def afterClimb : List (List Char) → List (List Char)
  | [] => []
  | segment :: rest => if IsDot segment then afterClimb rest else rest

/-- If the first segment climbs, the others are added to the root instead of the endpoint. -/
theorem foldl_appendSegment_of_climbs (hendpoint : endpoint ≠ "")
    (hdrive : isDriveLetter endpoint.toList = false) {segments : List (List Char)}
    (h : Climbs segments) :
    segments.foldl appendSegment (root ++ [endpoint]) =
      (afterClimb segments).foldl appendSegment (root ++ [""]) := by
  induction segments with
  | nil => cases h
  | cons segment rest ih =>
      rw [List.foldl_cons, afterClimb]
      by_cases hdot : IsDot segment
      · rw [appendSegment_of_isDot hdot, if_pos hdot]
        exact ih (by simpa [Climbs, hdot] using h)
      · have hstep : appendSegment (root ++ [endpoint]) segment = root ++ [""] := by
          have hstripped : stripped segment = ['.', '.'] := by simpa [Climbs, hdot] using h
          rw [appendSegment_of_not_isDot hdot, directory_concat root hendpoint, if_pos hstripped]
          simp [parentPath, hdrive]
        rw [hstep, if_neg hdot]

/-- What is added to a root with a name of its own stays behind an empty name. -/
theorem foldl_appendSegment_beside (hroot : root ≠ []) (segments : List (List Char)) :
    ∃ more, segments.foldl appendSegment (root ++ [""]) = root ++ "" :: more := by
  obtain ⟨first, more, hrun, hempty⟩ := foldl_appendSegment_below hroot segments "" []
  rw [hempty rfl] at hrun
  exact ⟨more, hrun⟩

/-! ## Names of targets -/

/-- The names that segments put into a path, where none of them acts as a dot segment. -/
def names (segments : List (List Char)) : List (List Char) :=
  (segments.filter (¬IsDot ·)).map stripped

/-- No segment is a dot segment only after tabs and line ends have been removed. -/
def Settled (segments : List (List Char)) : Prop :=
  ∀ name ∈ names segments, ¬IsDot name

instance (segments : List (List Char)) : Decidable (Settled segments) :=
  inferInstanceAs (Decidable (∀ name ∈ names segments, ¬IsDot name))

theorem foldl_appendSegment_of_settled {path : List String} (hne : path ≠ [])
    (hroot : path ≠ [""]) {segments : List (List Char)} (h : Settled segments) :
    segments.foldl appendSegment path = path ++ (names segments).map written := by
  induction segments generalizing path with
  | nil => simp [names]
  | cons segment rest ih =>
      rw [List.foldl_cons]
      by_cases hdot : IsDot segment
      · have hnames : names (segment :: rest) = names rest := by simp [names, hdot]
        rw [appendSegment_of_isDot hdot, hnames]
        exact ih hne hroot fun name hname => h name (hnames ▸ hname)
      · have hnames : names (segment :: rest) = stripped segment :: names rest := by
          simp [names, hdot]
        have hplain : ¬IsDot (stripped segment) := h _ (hnames ▸ List.mem_cons_self)
        have hstep : appendSegment path segment = path ++ [written (stripped segment)] := by
          rw [appendSegment_of_not_isDot hdot, directory_of_ne hroot,
            if_neg fun hdouble => hplain (.inr hdouble),
            if_neg fun hsingle => hplain (.inl hsingle)]
        have hrest : Settled rest := fun name hname => h name (hnames ▸ List.mem_cons_of_mem _ hname)
        rw [hstep, ih (by simp) (by simp [List.append_eq_singleton_iff, hne]) hrest, hnames]
        simp

theorem written_injective {name other : List Char} (h : written name = written other) :
    name = other :=
  encode_injective segmentSet_percent (String.ofList_injective h)

theorem slash_notMem_written (name : List Char) : '/' ∉ (written name).toList := by
  rw [written, String.toList_ofList]
  exact slash_notMem_encode name

/-! ## Base URLs -/

theorem popEmpty_trimPath (path : List String) : popEmpty (trimPath path) = trimPath path := by
  unfold trimPath
  split
  · rfl
  · apply if_neg
    rintro ⟨-, hlast⟩
    rw [List.getLast?_reverse] at hlast
    have hhead := List.head?_dropWhile_not (· == "") path.reverse
    simp [hlast] at hhead

theorem trimPath_ne_nil (path : List String) : trimPath path ≠ [] := by
  unfold trimPath
  split
  · exact List.cons_ne_nil _ _
  · assumption

end Url

/-- A base URL has neither query nor fragment, and its path does not end with an empty name. -/
theorem Config.parts_of_parseBaseUrl {text : String} {base : Url} {toAscii : Url.ToAscii}
    (h : parseBaseUrl text toAscii = .ok base) :
    base.query = none ∧ base.fragment = none ∧ base.path ≠ [] ∧
      Url.popEmpty base.path = base.path := by
  unfold parseBaseUrl at h
  split at h
  · cases h
  · cases h
  · split at h
    · cases h
      exact ⟨rfl, rfl, Url.trimPath_ne_nil _, Url.popEmpty_trimPath _⟩
    · cases h

/-- The path that a target names: blanks around it and slashes in front of it do not count. -/
def namedPath (target : String) : List Char :=
  (Text.trim target.toList).dropWhile (· == '/')

theorem dropWhile_normalizeTarget (target : String) :
    (normalizeTarget target).dropWhile (· == '/') = namedPath target := by
  unfold normalizeTarget namedPath
  split
  · next rest htrim => rw [htrim]
  · rfl

theorem targetSegments_normalizeTarget (target : String) :
    targetSegments (normalizeTarget target) = Url.splitOn (· == '/') (namedPath target) := by
  rw [targetSegments, dropWhile_normalizeTarget]

namespace Operation

/-- The name of the endpoint in the path. -/
def fileName (operation : Operation) : String :=
  operation.endpoint ++ ".json"

def fileNames : List String :=
  ["search.json", "path.json", "folders.json", "groups.json", "datasets.json"]

theorem fileName_mem (operation : Operation) : operation.fileName ∈ fileNames := by
  have hkind (kind : ContainerKind) : Client.containerEndpoint kind ++ ".json" ∈ fileNames := by
    cases kind <;> decide
  cases operation with
  | search target options => exact (by decide : "search" ++ ".json" ∈ fileNames)
  | lookup path view => exact (by decide : "path" ++ ".json" ∈ fileNames)
  | createContainer parent body kind => exact hkind kind
  | createDataset parent body => exact (by decide : "datasets" ++ ".json" ∈ fileNames)
  | deleteContainer path kind => exact hkind kind
  | deleteDataset path => exact (by decide : "datasets" ++ ".json" ∈ fileNames)

/-- The query that a search makes of its options; nothing else has one. -/
def query : Operation → Option String
  | search _ options =>
    if options.pairs = [] then none else some (String.ofList (Url.encodeForm options.pairs))
  | _ => none

end Operation

namespace Url

/-- The name of an endpoint is added to a path as it is. -/
theorem appendSegment_fileName {name : String} (h : name ∈ Operation.fileNames)
    (path : List String) : appendSegment path name.toList = directory path ++ [name] := by
  have hplain : ∀ name ∈ Operation.fileNames, ¬IsDot name.toList ∧
      ¬IsDot (stripped name.toList) ∧ written (stripped name.toList) = name := by decide
  obtain ⟨hdot, hstripped, hwritten⟩ := hplain name h
  rw [appendSegment_of_not_isDot hdot, if_neg fun hdouble => hstripped (.inr hdouble),
    if_neg fun hsingle => hstripped (.inl hsingle), hwritten]

theorem ordinary_of_mem_fileNames {name : String} (h : name ∈ Operation.fileNames) :
    name ≠ "" ∧ isDriveLetter name.toList = false ∧ '/' ∉ name.toList := by
  have hall : ∀ name ∈ Operation.fileNames,
      name ≠ "" ∧ isDriveLetter name.toList = false ∧ '/' ∉ name.toList := by decide
  exact hall name h

end Url

/-- The URL of a target below an endpoint is the base URL with a longer path. -/
theorem endpointUrl_eq {text : String} {base : Url} {toAscii : Url.ToAscii}
    (hbase : Config.parseBaseUrl text toAscii = .ok base) {endpoint : String}
    (hendpoint : endpoint ++ ".json" ∈ Operation.fileNames) (target : List Char) :
    endpointUrl base endpoint target = { base with
      path := (targetSegments target).foldl Url.appendSegment
        (Url.directory base.path ++ [endpoint ++ ".json"]) } := by
  obtain ⟨-, -, -, hpath⟩ := Config.parts_of_parseBaseUrl hbase
  rw [endpointUrl, hpath, Url.appendSegment_fileName hendpoint]

/-- The URL of a request is the base URL with a longer path and with the query of the operation. -/
theorem Operation.url_eq {text : String} {base : Url} {toAscii : Url.ToAscii}
    (hbase : Config.parseBaseUrl text toAscii = .ok base) (operation : Operation) :
    operation.url base = { base with
      path := (targetSegments operation.address).foldl Url.appendSegment
        (Url.directory base.path ++ [operation.fileName])
      query := operation.query } := by
  obtain ⟨hquery, -, -, -⟩ := Config.parts_of_parseBaseUrl hbase
  have hendpoint : endpointUrl base operation.endpoint operation.address = { base with
      path := (targetSegments operation.address).foldl Url.appendSegment
        (Url.directory base.path ++ [operation.fileName]) } :=
    endpointUrl_eq hbase operation.fileName_mem operation.address
  cases operation with
  | search target options =>
      have hsearch : searchUrl base target options =
          (endpointUrl base (search target options).endpoint
            (search target options).address).appendPairs options.pairs := rfl
      rw [url, hsearch, hendpoint, query]
      by_cases hpairs : options.pairs = []
      · simp [Url.appendPairs, hpairs, hquery]
      · simp [Url.appendPairs, hpairs, hquery]
  | _ =>
      rw [url, hendpoint, Operation.query, ← hquery]
      all_goals simp

end DataCatalog
