import DataCatalog.Proofs.Targets

/-!
# What a search asks for

The options of a search are written into the query of its URL as a form.  A form is read by taking
its pairs between ampersands and the name of each before the first equals sign; a plus is a space,
and then escapes are undone.  None of these marks is left as it is in a name or value that is
written, so reading the query gives back what is asked for, whatever the texts are.
-/

namespace DataCatalog

namespace Url

/-! ## Reading a form -/

/-- The bytes of a name or value of a form, where a plus stands for a space. -/
def decodeFormText (s : List Char) : List UInt8 :=
  decode (s.map fun c => if c = '+' then ' ' else c)

/-- A pair has its name before the first equals sign. -/
def decodeFormPair (s : List Char) : Option (String × String) := do
  let (name, value) := splitBefore (· == '=') s
  let name ← text? (decodeFormText name)
  let value ← text? (decodeFormText (value.drop 1))
  return (name, value)

/-- The pairs between ampersands, empty ones aside. -/
def decodeForm (s : List Char) : Option (List (String × String)) :=
  ((splitOn (· == '&') s).filter (· ≠ [])).mapM decodeFormPair

/-! ## Written forms are read back -/

theorem formSet_percent : (!isFormPlain '%') = true := rfl

/-- A mark of a form is not in what is written for a character. -/
theorem notMem_encodeFormChar {mark : Char} (hplain : isFormPlain mark = false)
    (hescape : ¬(mark = '%' ∨ mark ∈ "0123456789ABCDEF".toList)) (c : Char) :
    mark ∉ encodeChar (fun c => !isFormPlain c) c := by
  have hencode : mark ∉ encode (fun c => !isFormPlain c) [c] :=
    notMem_encode (by simp [hplain]) hescape [c]
  simpa [encode] using hencode

theorem decodeFormText_encodeFormText (s : List Char) :
    decodeFormText (encodeFormText s) = utf8 s := by
  induction s with
  | nil => rfl
  | cons c s ih =>
      have hcons : encodeFormText (c :: s) =
          (if c = ' ' then ['+'] else encodeChar (fun c => !isFormPlain c) c) ++
            encodeFormText s := List.flatMap_cons
      have hutf8 : utf8 (c :: s) = String.utf8EncodeChar c ++ utf8 s := List.flatMap_cons
      rw [decodeFormText] at ih
      rw [decodeFormText, hcons, hutf8, List.map_append]
      by_cases hspace : c = ' '
      · subst hspace
        rw [if_pos rfl, List.map_singleton, if_pos rfl, List.singleton_append,
          decode_cons_of_ne (by decide), ih]
      · have hplus : (encodeChar (fun c => !isFormPlain c) c).map
            (fun c => if c = '+' then ' ' else c) = encodeChar (fun c => !isFormPlain c) c := by
          rw [List.map_congr_left (g := id), List.map_id]
          intro d hd
          have hne : d ≠ '+' := by
            rintro rfl
            exact notMem_encodeFormChar rfl (by decide) c hd
          exact if_neg hne
        rw [if_neg hspace, hplus, decode_encodeChar formSet_percent, ih]

theorem notMem_encodeFormText {mark : Char} (hplus : mark ≠ '+') (hplain : isFormPlain mark = false)
    (hescape : ¬(mark = '%' ∨ mark ∈ "0123456789ABCDEF".toList)) (s : List Char) :
    mark ∉ encodeFormText s := by
  intro hmem
  obtain ⟨c, -, hc⟩ := List.mem_flatMap.mp hmem
  split at hc
  · exact hplus (List.mem_singleton.mp hc)
  · exact notMem_encodeFormChar hplain hescape c hc

/-- The written form of a pair. -/
def encodeFormPair (pair : String × String) : List Char :=
  encodeFormText pair.1.toList ++ '=' :: encodeFormText pair.2.toList

theorem decodeFormPair_encodeFormPair (pair : String × String) :
    decodeFormPair (encodeFormPair pair) = some pair := by
  have hequals : ∀ d ∈ encodeFormText pair.1.toList, (d == '=') = false := by
    intro d hd
    have hne : d ≠ '=' := by
      rintro rfl
      exact notMem_encodeFormText (by decide) rfl (by decide) pair.1.toList hd
    simpa using hne
  rw [decodeFormPair, encodeFormPair, splitBefore_append hequals (beq_self_eq_true '=')]
  simp [decodeFormText_encodeFormText, text?_utf8]

theorem ampersand_notMem_encodeFormPair (pair : String × String) : '&' ∉ encodeFormPair pair := by
  have htext (s : List Char) : '&' ∉ encodeFormText s :=
    notMem_encodeFormText (by decide) rfl (by decide) s
  simp [encodeFormPair, htext]

/-- Reading a written form gives back its pairs. -/
theorem decodeForm_encodeForm (pairs : List (String × String)) :
    decodeForm (encodeForm pairs) = some pairs := by
  have hparts : encodeForm pairs = ['&'].intercalate (pairs.map encodeFormPair) := rfl
  by_cases hnil : pairs = []
  · rw [hnil]
    rfl
  have hsplit : splitOn (· == '&') (encodeForm pairs) = pairs.map encodeFormPair := by
    rw [hparts]
    refine splitOn_intercalate ?_ (by simpa using hnil)
    exact List.forall_mem_map.mpr fun pair _ => ampersand_notMem_encodeFormPair pair
  have hfilter : (pairs.map encodeFormPair).filter (· ≠ []) = pairs.map encodeFormPair := by
    apply List.filter_eq_self.mpr
    intro part hpart
    obtain ⟨pair, -, rfl⟩ := List.mem_map.mp hpart
    simp [encodeFormPair]
  have hinverse : decodeFormPair ∘ encodeFormPair = pure :=
    funext decodeFormPair_encodeFormPair
  rw [decodeForm, hsplit, hfilter, List.mapM_map, hinverse]
  exact (List.mapM_pure (m := Option) (f := id)).trans (congrArg some (List.map_id _))

example : decodeForm "a=1+%2B&&b".toList = some [("a", "1 +"), ("b", "")] := by cbv

end Url

namespace SearchOptions

/-- What the options ask for: a filter unless it is empty, the sort keys and the fields to show in
their order, and the bounds in decimal digits. -/
def asked (options : SearchOptions) : List (String × String) :=
  (options.filter.toList.filter (· ≠ "")).map ("filter", ·) ++
    options.sort.map ("sort", ·) ++
    options.display.map ("show", ·) ++
    options.offset.toList.map (fun n => ("offset", toString n.toNat)) ++
    options.max.toList.map (fun n => ("max", toString n.toNat))

theorem pairs_eq_asked (options : SearchOptions) : options.pairs = options.asked := by
  obtain ⟨filter, sort, display, offset, max, view⟩ := options
  cases filter with
  | none => rfl
  | some text =>
      by_cases htext : text = ""
      · rw [htext]
        rfl
      · have hkept : [text].filter (· ≠ "") = [text] := by simp [htext]
        rw [pairs, asked, Option.toList_some, hkept]
        simp only [if_neg htext]
        rfl

end SearchOptions

/-- The URL of a search is that of its target, with a query unless nothing is asked for. -/
theorem searchUrl_eq {text : String} {base : Url} {toAscii : Url.ToAscii}
    (hbase : Config.parseBaseUrl text toAscii = .ok base) (target : String)
    (options : SearchOptions) :
    searchUrl base target options =
      { endpointUrl base "search" (options.view.decorate target) with
        query := if options.asked = [] then none
          else some (String.ofList (Url.encodeForm options.asked)) } := by
  have hsearch : searchUrl base target options = _ :=
    (Operation.search target options).url_eq hbase
  rw [hsearch, endpointUrl_eq hbase (by decide), ← options.pairs_eq_asked]
  rfl

theorem Url.text_of_query {url : Url} (hquery : url.query = none) (hfragment : url.fragment = none)
    (query : Option String) :
    { url with query := query }.text = url.text ++ ((query.map ("?" ++ ·)).getD "") := by
  obtain ⟨scheme, userInfo, host, port, path, noQuery, noFragment⟩ := url
  cases hquery
  cases hfragment
  cases query <;> simp [text, target, origin, pathText, String.append_assoc]

/-- The request of a search goes to the place of its target, and reading its query as a form gives
back what is asked for. -/
theorem Client.search_asks {client : Client} (haccepted : client.config.Accepted)
    (service : Service) (target : String) (options : SearchOptions) :
    let place := DataCatalog.endpointUrl client.config.baseUrl "search"
      (options.view.decorate target)
    ∃ request, (client.search service target options).log = [(request, service request)] ∧
      { request.url with query := none } = place ∧
      (request.url.query = none ↔ options.asked = []) ∧
      Url.decodeForm (request.url.query.getD "").toList = some options.asked ∧
      request.url.text = place.text ++ ((request.url.query.map ("?" ++ ·)).getD "") := by
  intro place
  obtain ⟨text, toAscii, hbase⟩ := haccepted
  obtain ⟨hquery, hfragment, -⟩ := Config.parts_of_parseBaseUrl hbase
  have hurl := searchUrl_eq hbase target options
  have hplace : place.query = none ∧ place.fragment = none := by
    simp only [place, endpointUrl_eq hbase (by decide : "search" ++ ".json" ∈ Operation.fileNames)]
    exact ⟨hquery, hfragment⟩
  refine ⟨_, rfl, ?_, ?_, ?_, ?_⟩
  · rw [hurl, ← hplace.1]
  · rw [hurl]
    by_cases hasked : options.asked = [] <;> simp [hasked]
  · rw [hurl]
    by_cases hasked : options.asked = []
    · rw [hasked]
      rfl
    · simp [hasked, Url.decodeForm_encodeForm]
  · rw [hurl, Url.text_of_query hplace.1 hplace.2]

/-- The marks of a form in a filter, an empty sort key and the greatest bound. -/
theorem Client.search_asks_reserved :
    let client : Client := ⟨⟨⟨"http", "", "localhost", some 8080, ["r"], none, none⟩, 30000⟩, {}⟩
    let options : SearchOptions :=
      { filter := some "a=b&c +é%", sort := ["nRun-", ""], max := some 18446744073709551615 }
    ∃ request, (client.search (fun _ => .hungUp) "/EXO" options).log = [(request, .hungUp)] ∧
      request.url.query ≠ none ∧
      Url.decodeForm (request.url.query.getD "").toList =
        some [("filter", "a=b&c +é%"), ("sort", "nRun-"), ("sort", ""),
          ("max", "18446744073709551615")] := by
  intro client options
  have haccepted : client.config.Accepted := ⟨"http://localhost:8080/r", .known [], rfl⟩
  obtain ⟨request, hlog, -, habsent, hform, -⟩ :=
    Client.search_asks haccepted (fun _ => .hungUp) "/EXO" options
  exact ⟨request, hlog, fun hquery => absurd (habsent.mp hquery) (by decide), hform⟩

end DataCatalog
