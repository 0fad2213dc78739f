import DataCatalog.Proofs.Addresses
import DataCatalog.Proofs.Splitting

/-!
# Which entry a request names

A client with an accepted base URL sends every request to its server.  The request stays below its
endpoint unless the first segment of its address that is not left out climbs; then the request is
about a place beside the endpoint.

Deletions and creations of different entries have different URLs as long as the names in their
targets are different.  Where a target has no dot segments, tabs and line ends, its names are its
segments, and the URL tells the whole target.
-/

namespace DataCatalog

namespace Url

/-! ## Staying below an endpoint -/

/-- The path is that of the base, then the name, then nothing or a slash and anything. -/
def Below (base : Url) (name : String) (url : Url) : Prop :=
  ∃ rest, url.pathText = writePath (directory base.path) ++ "/" ++ name ++ rest ∧
    (rest = "" ∨ ∃ more, rest = "/" ++ more)

theorem below_of_path {base url : Url} {name : String} {more : List String}
    (h : url.path = directory base.path ++ [name] ++ more) : Below base name url := by
  refine ⟨writePath more, ?_, writePath_cases more⟩
  rw [pathText, h, writePath_append, writePath_append, writePath_cons, writePath_nil]
  simp only [String.append_assoc, String.append_empty]

theorem not_below_of_path {base url : Url} {name : String} {more : List String}
    (hname : name ≠ "") (hslash : '/' ∉ name.toList)
    (h : url.path = directory base.path ++ "" :: more) : ¬Below base name url := by
  rintro ⟨rest, htext, -⟩
  rw [pathText, h, writePath_append, writePath_cons] at htext
  simp only [String.append_assoc, String.empty_append, String.append_right_inj] at htext
  have hchars : (writePath more).toList = name.toList ++ rest.toList := by
    simpa using congrArg String.toList htext
  cases hfirst : name.toList with
  | nil => exact hname (String.toList_eq_nil_iff.mp hfirst)
  | cons c letters =>
      rw [hfirst] at hchars hslash
      have hc := eq_slash_of_writePath_eq_cons hchars
      simp [hc] at hslash

/-- Only a tab or a line end lets a segment climb. -/
theorem exists_isIgnored_of_climbs {segments : List (List Char)} (h : Climbs segments) :
    ∃ segment ∈ segments, ∃ c ∈ segment, isIgnored c = true := by
  induction segments with
  | nil => cases h
  | cons segment rest ih =>
      by_cases hdot : IsDot segment
      · obtain ⟨other, hother, hignored⟩ := ih (by simpa [Climbs, hdot] using h)
        exact ⟨other, List.mem_cons_of_mem _ hother, hignored⟩
      · have hstripped : stripped segment = ['.', '.'] := by simpa [Climbs, hdot] using h
        refine ⟨segment, List.mem_cons_self, ?_⟩
        by_contra hnone
        have hplain : stripped segment = segment :=
          stripped_of_forall fun c hc => Bool.eq_false_of_not_eq_true fun hignored =>
            hnone ⟨c, hc, hignored⟩
        exact hdot (.inr (hplain ▸ hstripped))

/-! ## Texts of URLs -/

theorem text_eq_iff (base : Url) (path other : List String) :
    { base with path := path, query := none }.text =
        { base with path := other, query := none }.text ↔
      writePath path = writePath other := by
  have horigin (path : List String) :
      { base with path := path, query := none }.origin = base.origin := rfl
  rw [text, text, horigin, horigin, String.append_left_inj, String.append_right_inj]
  rw [target, target, String.append_left_inj, pathText, pathText]

/-- Below one path, a name and further names can be told from the text. -/
theorem writePath_names_eq_iff {path : List String} {first first' : String}
    {segments segments' : List (List Char)} (hfirst : '/' ∉ first.toList)
    (hfirst' : '/' ∉ first'.toList) :
    writePath (path ++ [first] ++ segments.map written) =
        writePath (path ++ [first'] ++ segments'.map written) ↔
      first = first' ∧ segments = segments' := by
  have hnames {first : String} (hfirst : '/' ∉ first.toList) (segments : List (List Char)) :
      ∀ name ∈ first :: segments.map written, '/' ∉ name.toList := by
    intro name hname
    rcases List.mem_cons.mp hname with rfl | hname
    · exact hfirst
    · obtain ⟨segment, -, rfl⟩ := List.mem_map.mp hname
      exact slash_notMem_written segment
  constructor
  · intro h
    rw [List.append_assoc, List.append_assoc, writePath_append, writePath_append path,
      String.append_right_inj] at h
    have hlists := writePath_injective (hnames hfirst segments) (hnames hfirst' segments') h
    obtain ⟨hhead, htail⟩ := List.cons.inj hlists
    exact ⟨hhead, List.map_injective_iff.mpr (fun _ _ => written_injective) htail⟩
  · rintro ⟨rfl, rfl⟩
    rfl

/-! ## Plain texts -/

/-- No part of the text has a meaning of its own in a path. -/
def IsPlain (s : List Char) : Prop :=
  (∀ c ∈ s, isIgnored c = false) ∧ ∀ segment ∈ splitOn (· == '/') s, ¬IsDot segment

instance (s : List Char) : Decidable (IsPlain s) :=
  have : Decidable (∀ c ∈ s, isIgnored c = false) := List.decidableBAll _ s
  inferInstanceAs (Decidable ((∀ c ∈ s, _) ∧ ∀ segment ∈ splitOn (· == '/') s, ¬IsDot segment))

theorem names_eq_self {segments : List (List Char)}
    (h : ∀ segment ∈ segments, ¬IsDot segment ∧ ∀ c ∈ segment, isIgnored c = false) :
    names segments = segments := by
  have hkept : segments.filter (¬IsDot ·) = segments :=
    List.filter_eq_self.mpr fun segment hsegment => by simpa using (h segment hsegment).1
  calc names segments
      _ = segments.map stripped := by rw [names, hkept]
      _ = segments.map id := List.map_congr_left fun segment hsegment =>
          stripped_of_forall (h segment hsegment).2
      _ = segments := List.map_id _

theorem unmixed_of_isPlain {s : List Char} (h : IsPlain s) :
    ∀ segment ∈ splitOn (· == '/') s, ¬IsDot segment ∧ ∀ c ∈ segment, isIgnored c = false :=
  fun segment hsegment => ⟨h.2 segment hsegment, fun c hc => h.1 c (mem_of_mem_splitOn hsegment hc)⟩

/-- The names of a plain text are its segments. -/
theorem names_of_isPlain {s : List Char} (h : IsPlain s) :
    names (splitOn (· == '/') s) = splitOn (· == '/') s :=
  names_eq_self (unmixed_of_isPlain h)

theorem settled_of_isPlain {s : List Char} (h : IsPlain s) :
    Settled (splitOn (· == '/') s) := by
  intro name hname
  rw [names_of_isPlain h] at hname
  exact h.2 name hname

end Url

/-! ## Requests of a client -/

/-- The base URL is one that a configuration can have, whatever the conversion of domain names. -/
def Config.Accepted (config : Config) : Prop :=
  ∃ text toAscii, parseBaseUrl text toAscii = .ok config.baseUrl

/-- The operation makes or removes an entry. -/
def Operation.Changes : Operation → Prop
  | search _ _ => False
  | lookup _ _ => False
  | _ => True

theorem Operation.address_of_changes {operation : Operation} (h : operation.Changes) :
    operation.address = normalizeTarget operation.target := by
  cases operation with
  | search target options => cases h
  | lookup path view => cases h
  | _ => rfl

theorem Operation.query_of_changes {operation : Operation} (h : operation.Changes) :
    operation.query = none := by
  cases operation with
  | search target options => cases h
  | _ => rfl

namespace Client

variable {client : Client} {service : Service} {operation : Operation} {request : Request}
  {outcome : Outcome}

theorem url_of_sent (haccepted : client.config.Accepted)
    (hsent : (request, outcome) ∈ (client.perform service operation).log) :
    request.url = { client.config.baseUrl with
      path := (targetSegments operation.address).foldl Url.appendSegment
        (Url.directory client.config.baseUrl.path ++ [operation.fileName])
      query := operation.query } := by
  obtain ⟨text, toAscii, hbase⟩ := haccepted
  rw [url_of_prepare (prepare_of_mem_log hsent).1, operation.url_eq hbase]

/-- A request goes to the server of the base URL, without a fragment, and only that of a search has
a query.  It stays below its endpoint unless the first segment that is not left out climbs.  If
that one climbs, the request goes to the place that the segments behind it name beside the
endpoint; that place is not below the endpoint, at least if the base URL has a path. -/
theorem request_below_endpoint (haccepted : client.config.Accepted)
    (hsent : (request, outcome) ∈ (client.perform service operation).log) :
    let base := client.config.baseUrl
    request.url.scheme = base.scheme ∧ request.url.userInfo = base.userInfo ∧
      request.url.host = base.host ∧ request.url.port = base.port ∧
      request.url.fragment = none ∧ request.url.query = operation.query ∧
      (¬Url.Climbs (targetSegments operation.address) →
        Url.Below base operation.fileName request.url) ∧
      (Url.Climbs (targetSegments operation.address) →
        request.url.path = (Url.afterClimb (targetSegments operation.address)).foldl
            Url.appendSegment (Url.directory base.path ++ [""]) ∧
          (base.path ≠ [""] → ¬Url.Below base operation.fileName request.url)) := by
  intro base
  have hurl := url_of_sent haccepted hsent
  obtain ⟨text, toAscii, hbase⟩ := haccepted
  obtain ⟨-, hfragment, hpath, -⟩ := Config.parts_of_parseBaseUrl hbase
  obtain ⟨hname, hdrive, hslash⟩ := Url.ordinary_of_mem_fileNames operation.fileName_mem
  refine ⟨?_, ?_, ?_, ?_, ?_, ?_, fun hstays => ?_, fun hclimbs => ?_⟩
  · rw [hurl]
  · rw [hurl]
  · rw [hurl]
  · rw [hurl]
  · rw [hurl, ← hfragment]
  · rw [hurl]
  · obtain ⟨more, hmore⟩ := Url.foldl_appendSegment_of_not_climbs hname hstays
    apply Url.below_of_path
    rw [hurl, ← hmore]
  · have hbeside : request.url.path = (Url.afterClimb (targetSegments operation.address)).foldl
        Url.appendSegment (Url.directory base.path ++ [""]) := by
      rw [hurl, ← Url.foldl_appendSegment_of_climbs hname hdrive hclimbs]
    refine ⟨hbeside, fun hroot => ?_⟩
    have hdirectory : Url.directory base.path ≠ [] := by
      rw [Url.directory_of_ne hroot]
      exact hpath
    obtain ⟨more, hmore⟩ := Url.foldl_appendSegment_beside hdirectory _
    exact Url.not_below_of_path hname hslash (hbeside.trans hmore)

/-- Two deletions of a dataset: the first segment that is not left out is a name, or it climbs. -/
theorem request_below_endpoint_datasets :
    let client : Client := ⟨⟨⟨"http", "", "localhost", some 8080, ["r"], none, none⟩, 30000⟩, {}⟩
    let service : Service := fun _ => .hungUp
    (∃ request,
        (request, .hungUp) ∈ (client.perform service (.deleteDataset "../odd?name#1")).log ∧
        Url.Below client.config.baseUrl "datasets.json" request.url) ∧
      ∃ request, (request, .hungUp) ∈ (client.perform service (.deleteDataset ".\t./odd")).log ∧
        ¬Url.Below client.config.baseUrl "datasets.json" request.url := by
  intro client service
  have haccepted : client.config.Accepted := ⟨"http://localhost:8080/r/", .known [], rfl⟩
  have hname : (_, .hungUp) ∈ (client.perform service (.deleteDataset "../odd?name#1")).log :=
    List.mem_singleton_self _
  have hclimb : (_, .hungUp) ∈ (client.perform service (.deleteDataset ".\t./odd")).log :=
    List.mem_singleton_self _
  obtain ⟨-, -, -, -, -, -, hbelow, -⟩ := request_below_endpoint haccepted hname
  obtain ⟨-, -, -, -, -, -, -, hbeside⟩ := request_below_endpoint haccepted hclimb
  exact ⟨⟨_, hname, hbelow (by decide)⟩, _, hclimb, (hbeside (by decide)).2 (by decide)⟩

/-- Not every request stays below its endpoint: with a base URL without a path, the deletion of a
folder can reach a dataset. -/
theorem not_forall_below_endpoint :
    ¬ ∀ (client : Client) (service : Service) (operation : Operation) (request : Request)
        (outcome : Outcome), client.config.Accepted →
      (request, outcome) ∈ (client.perform service operation).log →
      Url.Below client.config.baseUrl operation.fileName request.url := by
  intro hall
  let client : Client := ⟨⟨⟨"http", "", "localhost", some 8080, [""], none, none⟩, 30000⟩, {}⟩
  let operation : Operation := .deleteContainer ".\t./datasets.json/a" .folder
  have haccepted : client.config.Accepted := ⟨"http://localhost:8080", .known [], rfl⟩
  have hsent : (_, .hungUp) ∈ (client.perform (fun _ => .hungUp) operation).log :=
    List.mem_singleton_self _
  obtain ⟨rest, htext, -⟩ := hall _ _ _ _ _ haccepted hsent
  have hreached : (operation.url client.config.baseUrl).pathText = "/datasets.json/a" := by decide
  have hnamed : Url.writePath (Url.directory client.config.baseUrl.path) ++ "/" ++
      operation.fileName = "/folders.json" := by decide
  have hchars : "/datasets.json/a".toList = "/folders.json".toList ++ rest.toList := by
    rw [← hnamed, ← hreached, ← String.toList_append]
    exact congrArg String.toList htext
  simpa using congrArg (List.take 2) hchars

variable {service' : Service} {operation' : Operation} {request' : Request} {outcome' : Outcome}

/-- The URL of a change whose target is settled: the names of the target stand below the endpoint. -/
theorem url_of_sent_change (haccepted : client.config.Accepted) (hchanges : operation.Changes)
    (hsent : (request, outcome) ∈ (client.perform service operation).log)
    (hsettled : Url.Settled (targetSegments operation.address)) :
    request.url = { client.config.baseUrl with
      path := Url.directory client.config.baseUrl.path ++ [operation.fileName] ++
        (Url.names (targetSegments operation.address)).map Url.written
      query := none } := by
  obtain ⟨hname, -⟩ := Url.ordinary_of_mem_fileNames operation.fileName_mem
  have hne : Url.directory client.config.baseUrl.path ++ [operation.fileName] ≠ [""] := by
    simp [List.append_eq_singleton_iff, hname]
  rw [url_of_sent haccepted hsent, Operation.query_of_changes hchanges,
    Url.foldl_appendSegment_of_settled (by simp) hne hsettled]

theorem same_url_iff_names (haccepted : client.config.Accepted)
    (hchanges : operation.Changes) (hchanges' : operation'.Changes)
    (hsent : (request, outcome) ∈ (client.perform service operation).log)
    (hsent' : (request', outcome') ∈ (client.perform service' operation').log)
    (hsettled : Url.Settled (targetSegments operation.address))
    (hsettled' : Url.Settled (targetSegments operation'.address)) :
    request.url.text = request'.url.text ↔ operation.fileName = operation'.fileName ∧
      Url.names (targetSegments operation.address) =
        Url.names (targetSegments operation'.address) := by
  obtain ⟨-, -, hslash⟩ := Url.ordinary_of_mem_fileNames operation.fileName_mem
  obtain ⟨-, -, hslash'⟩ := Url.ordinary_of_mem_fileNames operation'.fileName_mem
  rw [url_of_sent_change haccepted hchanges hsent hsettled,
    url_of_sent_change haccepted hchanges' hsent' hsettled', Url.text_eq_iff,
    Url.writePath_names_eq_iff hslash hslash']

/-- Two changes have one URL exactly if they go to one endpoint and their targets have the same
names.  With plain targets this means that both name the same path. -/
theorem same_url_iff (haccepted : client.config.Accepted)
    (hchanges : operation.Changes) (hchanges' : operation'.Changes)
    (hsent : (request, outcome) ∈ (client.perform service operation).log)
    (hsent' : (request', outcome') ∈ (client.perform service' operation').log) :
    (Url.Settled (targetSegments operation.address) →
        Url.Settled (targetSegments operation'.address) →
        (request.url.text = request'.url.text ↔ operation.fileName = operation'.fileName ∧
          Url.names (targetSegments operation.address) =
            Url.names (targetSegments operation'.address))) ∧
      (Url.IsPlain (namedPath operation.target) → Url.IsPlain (namedPath operation'.target) →
        (request.url.text = request'.url.text ↔ operation.fileName = operation'.fileName ∧
          namedPath operation.target = namedPath operation'.target)) := by
  refine ⟨same_url_iff_names haccepted hchanges hchanges' hsent hsent', fun hplain hplain' => ?_⟩
  have hsegments {operation : Operation} (hchanges : operation.Changes) :
      targetSegments operation.address =
        Url.splitOn (· == '/') (namedPath operation.target) := by
    rw [Operation.address_of_changes hchanges, targetSegments_normalizeTarget]
  rw [same_url_iff_names haccepted hchanges hchanges' hsent hsent'
      (hsegments hchanges ▸ Url.settled_of_isPlain hplain)
      (hsegments hchanges' ▸ Url.settled_of_isPlain hplain'),
    hsegments hchanges, hsegments hchanges', Url.names_of_isPlain hplain,
    Url.names_of_isPlain hplain', (Url.splitOn_injective '/').eq_iff]

/-- Blanks around a target and slashes in front of it do not count, a blank within it does. -/
theorem same_url_iff_blank :
    let client : Client := ⟨⟨⟨"http", "", "localhost", some 8080, ["r"], none, none⟩, 30000⟩, {}⟩
    let service : Service := fun _ => .hungUp
    ∃ request request' request'',
      (request, .hungUp) ∈ (client.perform service (.deleteDataset " //a b/c")).log ∧
      (request', .hungUp) ∈ (client.perform service (.deleteDataset "a b/c")).log ∧
      (request'', .hungUp) ∈ (client.perform service (.deleteDataset "a/b c")).log ∧
      request.url.text = request'.url.text ∧ request.url.text ≠ request''.url.text := by
  intro client service
  have haccepted : client.config.Accepted := ⟨"http://localhost:8080/r/", .known [], rfl⟩
  have hfirst : (_, .hungUp) ∈ (client.perform service (.deleteDataset " //a b/c")).log :=
    List.mem_singleton_self _
  have hsecond : (_, .hungUp) ∈ (client.perform service (.deleteDataset "a b/c")).log :=
    List.mem_singleton_self _
  have hthird : (_, .hungUp) ∈ (client.perform service (.deleteDataset "a/b c")).log :=
    List.mem_singleton_self _
  have hchanges (path : String) : (Operation.deleteDataset path).Changes := trivial
  obtain ⟨-, hsame⟩ := same_url_iff haccepted (hchanges _) (hchanges _) hfirst hsecond
  obtain ⟨hother, -⟩ := same_url_iff haccepted (hchanges _) (hchanges _) hfirst hthird
  refine ⟨_, _, _, hfirst, hsecond, hthird, ?_, ?_⟩
  · have hplain : Url.IsPlain (namedPath "a b/c") := by decide
    exact (hsame hplain hplain).mpr (by decide)
  · intro hequal
    exact absurd ((hother (by decide) (by decide)).mp hequal) (by decide)

/-- A change need not be one of the entry that is named: the deletion of a folder with a tab in its
name is that of the folder without the tab. -/
theorem not_forall_same_name :
    ¬ ∀ (client : Client) (service : Service) (p q : String) (kind : ContainerKind)
        (request request' : Request) (outcome outcome' : Outcome), client.config.Accepted →
      (request, outcome) ∈ (client.perform service (.deleteContainer p kind)).log →
      (request', outcome') ∈ (client.perform service (.deleteContainer q kind)).log →
      request.url.text = request'.url.text → namedPath p = namedPath q := by
  intro hall
  let client : Client := ⟨⟨⟨"http", "", "localhost", some 8080, ["r"], none, none⟩, 30000⟩, {}⟩
  let service : Service := fun _ => .hungUp
  have haccepted : client.config.Accepted := ⟨"http://localhost:8080/r", .known [], rfl⟩
  have htab : (_, .hungUp) ∈ (client.perform service (.deleteContainer "/a\tb" .folder)).log :=
    List.mem_singleton_self _
  have hplain : (_, .hungUp) ∈ (client.perform service (.deleteContainer "/ab" .folder)).log :=
    List.mem_singleton_self _
  have hsame := hall client service "/a\tb" "/ab" .folder _ _ _ _ haccepted htab hplain (by decide)
  exact absurd hsame (by decide)

end Client

end DataCatalog
