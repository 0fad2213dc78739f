import DataCatalog.Proofs.PlainTargets

/-!
# What a view adds to a target

A view writes its version and its site behind the last segment of a target, each after a sign of its
own and without escapes.  The suffix therefore stays in that segment exactly if there is no slash in
it, and it can be read back unless the version has the sign of a site in it.  The path of a request
tells suffixes apart: a segment with a semicolon behind it is always a name, and names are written
injectively.
-/

namespace DataCatalog

namespace View

/-! ## Suffixes -/

/-- What is asked for; an empty text asks for nothing. -/
def asked (text : Option String) : Option String :=
  text.filter (· ≠ "")

/-- The suffix of the last segment. -/
def mark (view : View) : List Char :=
  suffix [';', 'v', '='] view.version ++ suffix [';', 's', '='] view.site

theorem decorate_eq (view : View) (target : String) :
    view.decorate target = normalizeTarget target ++ view.mark :=
  List.append_assoc ..

theorem suffix_eq (sign : List Char) (text : Option String) :
    suffix sign text = ((asked text).map (sign ++ ·.toList)).getD [] := by
  cases text with
  | none => rfl
  | some text => by_cases htext : text = "" <;> simp [suffix, asked, Option.filter, htext]

theorem head?_mark (view : View) : view.mark.head? = none ∨ view.mark.head? = some ';' := by
  rw [mark, suffix_eq, suffix_eq]
  cases asked view.version <;> cases asked view.site <;> simp

theorem dropWhile_mark {p : Char → Bool} (h : p ';' = false) (view : View) :
    view.mark.dropWhile p = view.mark := by
  rcases view.head?_mark with hnone | hsome
  · rw [List.head?_eq_none_iff.mp hnone, List.dropWhile_nil]
  · obtain ⟨rest, hrest⟩ := List.head?_eq_some_iff.mp hsome
    rw [hrest, List.dropWhile_cons_of_neg (by simp [h])]

/-- The views ask for the same. -/
def Same (view other : View) : Prop :=
  asked view.version = asked other.version ∧ asked view.site = asked other.site

/-- The version of the other view is that of this one, the sign of a site, and the text with which
the site of this one begins; the rest of the site is what the other view has for its site. -/
def Continues (view other : View) : Prop :=
  ∃ version more, asked view.version = some version ∧
    asked other.version = some (version ++ ";s=" ++ more) ∧
    asked view.site = some (more ++ String.ofList (suffix [';', 's', '='] other.site))

theorem mark_eq_of_continues {view other : View} (h : view.Continues other) :
    view.mark = other.mark := by
  obtain ⟨version, more, hversion, hother, hsite⟩ := h
  rw [mark, mark, suffix_eq, suffix_eq _ view.site, suffix_eq _ other.version, hversion, hother,
    hsite]
  simp

theorem mark_eq_of_same {view other : View} (h : view.Same other) : view.mark = other.mark := by
  rw [mark, mark, suffix_eq, suffix_eq, suffix_eq, suffix_eq, h.1, h.2]

theorem asked_eq_of_suffix_eq {sign : List Char} {text other : Option String} (hsign : sign ≠ [])
    (h : suffix sign text = suffix sign other) : asked text = asked other := by
  rw [suffix_eq, suffix_eq] at h
  cases htext : asked text <;> cases hother : asked other <;>
    simp_all [String.toList_inj]

/-- The sign of a site stands at the beginning of a suffix only. -/
theorem exists_more_of_sign_append {site a rest : List Char} (ha : a ≠ [])
    (hrest : ∀ c ∈ rest.head?, c = ';') (h : [';', 's', '='] ++ site = a ++ rest) :
    ∃ more, a = [';', 's', '='] ++ more ∧ site = more ++ rest := by
  match a, ha with
  | [_], _ =>
      simp only [List.cons_append, List.nil_append, List.cons.injEq] at h
      exact absurd (hrest 's' (by rw [← h.2]; rfl)) (by decide)
  | [_, _], _ =>
      simp only [List.cons_append, List.nil_append, List.cons.injEq] at h
      exact absurd (hrest '=' (by rw [← h.2.2]; rfl)) (by decide)
  | _ :: _ :: _ :: more, _ =>
      simp only [List.cons_append, List.nil_append, List.cons.injEq] at h
      obtain ⟨rfl, rfl, rfl, hsite⟩ := h
      exact ⟨more, rfl, hsite⟩

theorem head?_suffix (sign : Char) (signs : List Char) (text : Option String) :
    ∀ c ∈ (suffix (sign :: signs) text).head?, c = sign := by
  rw [suffix_eq]
  cases asked text <;> simp

/-- Two views with versions have one suffix if they ask for the same or one continues the other. -/
theorem same_or_continues {view other : View} {version version' : String}
    (hversion : asked view.version = some version)
    (hversion' : asked other.version = some version') {a : List Char}
    (ha : version'.toList = version.toList ++ a)
    (hsite : suffix [';', 's', '='] view.site = a ++ suffix [';', 's', '='] other.site) :
    view.Same other ∨ view.Continues other := by
  by_cases hnil : a = []
  · subst hnil
    have hsame : version = version' := String.toList_inj.mp (by simpa using ha.symm)
    exact .inl ⟨by rw [hversion, hversion', hsame], asked_eq_of_suffix_eq (by simp) hsite⟩
  · cases hasked : asked view.site with
    | none =>
        rw [suffix_eq, hasked] at hsite
        exact absurd (List.append_eq_nil_iff.mp hsite.symm).1 hnil
    | some site =>
        have hsign : [';', 's', '='] ++ site.toList = a ++ suffix [';', 's', '='] other.site := by
          rw [← hsite, suffix_eq, hasked]
          rfl
        obtain ⟨more, rfl, hmore⟩ := exists_more_of_sign_append hnil (head?_suffix _ _ _) hsign
        refine .inr ⟨version, String.ofList more, hversion, ?_, ?_⟩
        · have hlonger : version' = version ++ ";s=" ++ String.ofList more :=
            String.toList_inj.mp (by simpa using ha)
          rw [hversion', hlonger]
        · have hwhole : site =
              String.ofList more ++ String.ofList (suffix [';', 's', '='] other.site) :=
            String.toList_inj.mp (by simpa using hmore)
          rw [hasked, hwhole]

theorem mark_eq_iff {view other : View} :
    view.mark = other.mark ↔ view.Same other ∨ view.Continues other ∨ other.Continues view := by
  constructor
  · intro h
    rw [mark, mark, suffix_eq _ view.version, suffix_eq _ other.version] at h
    cases hversion : asked view.version with
    | none =>
        cases hversion' : asked other.version with
        | none =>
            rw [hversion, hversion'] at h
            exact .inl ⟨by rw [hversion, hversion'], asked_eq_of_suffix_eq (by simp) h⟩
        | some version' =>
            -- only one of the suffixes begins with the sign of a version
            rw [hversion, hversion', suffix_eq] at h
            cases hsite : asked view.site <;> simp [hsite] at h
    | some version =>
        cases hversion' : asked other.version with
        | none =>
            rw [hversion, hversion', suffix_eq _ other.site] at h
            cases hsite : asked other.site <;> simp [hsite] at h
        | some version' =>
            simp only [hversion, hversion', Option.map_some, Option.getD_some, List.append_assoc,
              List.append_cancel_left_eq] at h
            -- one version begins with the other, and what is left of it begins the other site
            rcases List.append_eq_append_iff.mp h with ⟨a, ha, hsite⟩ | ⟨a, ha, hsite⟩
            · rcases same_or_continues hversion hversion' ha hsite with hsame | hcontinues
              · exact .inl hsame
              · exact .inr (.inl hcontinues)
            · rcases same_or_continues hversion' hversion ha hsite with hsame | hcontinues
              · exact .inl ⟨hsame.1.symm, hsame.2.symm⟩
              · exact .inr (.inr hcontinues)
  · rintro (hsame | hcontinues | hcontinues)
    · exact mark_eq_of_same hsame
    · exact mark_eq_of_continues hcontinues
    · exact (mark_eq_of_continues hcontinues).symm

/-! ## Reading a suffix -/

/-- A version, and the site behind the first sign of one. -/
def splitSite : List Char → List Char × Option (List Char)
  | [] => ([], none)
  | ';' :: 's' :: '=' :: site => ([], some site)
  | c :: rest =>
    let (version, site) := splitSite rest
    (c :: version, site)

/-- The version and the site that a suffix names. -/
def readMark : List Char → Option String × Option String
  | ';' :: 'v' :: '=' :: rest =>
    let (version, site) := splitSite rest
    (some (String.ofList version), site.map String.ofList)
  | ';' :: 's' :: '=' :: site => (none, some (String.ofList site))
  | _ => (none, none)

theorem splitSite_cons {c : Char} {rest : List Char}
    (h : ∀ site, c :: rest ≠ ';' :: 's' :: '=' :: site) :
    splitSite (c :: rest) = (c :: (splitSite rest).1, (splitSite rest).2) := by
  rw [splitSite.eq_def]
  split
  · next hnil => cases hnil
  · next site hsite => exact absurd hsite (h site)
  · next hcons =>
      cases hcons
      rfl

/-- A version in which no sign of a site stands is read as a whole. -/
theorem splitSite_append {version : List Char} (h : ¬[';', 's', '='] <:+: version)
    (site : Option String) :
    splitSite (version ++ suffix [';', 's', '='] site) =
      (version, (asked site).map String.toList) := by
  induction version with
  | nil =>
      rw [suffix_eq]
      cases asked site <;> rfl
  | cons c version ih =>
      have hstart : ∀ rest, c :: (version ++ suffix [';', 's', '='] site) ≠
          ';' :: 's' :: '=' :: rest := by
        intro rest hsign
        obtain ⟨more, hmore, -⟩ := exists_more_of_sign_append (List.cons_ne_nil c version)
          (head?_suffix _ _ site) hsign.symm
        exact h ⟨[], more, hmore.symm⟩
      have hrest := ih fun hsign => h (hsign.trans (List.suffix_cons c version).isInfix)
      rw [List.cons_append, splitSite_cons hstart, hrest]

theorem eq_some_of_asked {text : Option String} {value : String} (h : asked text = some value) :
    text = some value :=
  (Option.filter_eq_some_iff.mp h).1

theorem readMark_mark {view : View}
    (h : ∀ version ∈ view.version, ¬[';', 's', '='] <:+: version.toList) :
    readMark view.mark = (asked view.version, asked view.site) := by
  rw [mark, suffix_eq _ view.version]
  cases hversion : asked view.version with
  | none =>
      rw [suffix_eq]
      cases asked view.site <;> simp [readMark]
  | some version =>
      have hread := splitSite_append (h version (eq_some_of_asked hversion)) view.site
      simp only [Option.map_some, Option.getD_some, List.cons_append, List.nil_append, readMark,
        hread, String.ofList_toList, Option.map_map]
      cases asked view.site <;> simp

/-! ## Segments of a decorated target -/

theorem targetSegments_decorate (view : View) (target : String) :
    targetSegments (view.decorate target) =
      Url.splitOn (· == '/') (namedPath target ++ view.mark) := by
  rw [targetSegments, decorate_eq, List.dropWhile_append, view.dropWhile_mark (by decide),
    dropWhile_normalizeTarget]
  by_cases hempty : namedPath target = [] <;> simp [hempty]

/-- The target keeps its segments, except that the last one gains a suffix. -/
def KeepsSegments (view : View) (target : String) : Prop :=
  ∃ front last gained, targetSegments (normalizeTarget target) = front ++ [last] ∧
    targetSegments (view.decorate target) = front ++ [last ++ gained]

theorem keepsSegments_iff {view : View} {target : String} :
    view.KeepsSegments target ↔ '/' ∉ view.mark := by
  obtain ⟨front, last, hsplit, happend⟩ := Url.exists_splitOn_append (· == '/') (namedPath target)
  have hdecorated := happend view.mark
  rw [KeepsSegments, targetSegments_decorate, targetSegments_normalizeTarget, hsplit, hdecorated]
  constructor
  · rintro ⟨front', last', gained, hfront, hgained⟩
    obtain ⟨rfl, -⟩ := List.append_inj' hfront rfl
    have hparts := List.append_cancel_left hgained
    obtain ⟨part, hpart⟩ := List.length_eq_one_iff.mp
      ((List.length_modifyHead (f := (last ++ ·))).symm.trans (congrArg List.length hparts))
    exact Url.notMem_of_splitOn_eq_singleton hpart
  · intro hslash
    rw [Url.splitOn_of_notMem hslash]
    exact ⟨front, last, view.mark, rfl, rfl⟩

end View

namespace Url

/-! ## Paths of decorated targets -/

theorem Slashless.directory {path : List String} (h : Slashless path) :
    Slashless (directory path) := by
  unfold Url.directory
  split
  · exact fun name hname => nomatch hname
  · exact h

theorem Slashless.appendSegment {path : List String} (hpath : Slashless path)
    (segment : List Char) : Slashless (appendSegment path segment) := by
  unfold Url.appendSegment
  split
  · exact hpath
  · exact hpath.directory.addSegment true (slash_notMem_encode _)

theorem Slashless.foldl_appendSegment {path : List String} (hpath : Slashless path)
    (segments : List (List Char)) : Slashless (segments.foldl Url.appendSegment path) := by
  induction segments generalizing path with
  | nil => exact hpath
  | cons segment segments ih => exact ih (hpath.appendSegment segment)

/-- The name that a segment adds to a path is empty or written from the segment. -/
theorem eq_of_appendSegment_eq {path more : List String} {segment : List Char} {name : String}
    (h : appendSegment path segment = directory path ++ name :: more) :
    name = "" ∨ name = written (stripped segment) := by
  by_cases hdot : IsDot segment
  · rw [appendSegment_of_isDot hdot] at h
    by_cases hroot : path = [""]
    · rw [hroot] at h
      exact .inl (List.cons.inj h).1.symm
    · rw [directory_of_ne hroot] at h
      have hlength := congrArg List.length h
      simp at hlength
  rw [appendSegment_of_not_isDot hdot] at h
  split at h
  · -- the place above is no longer than the path, so the empty name stands where the name does
    have hle := (parentPath_sublist (directory path)).length_le
    have hlength := congrArg List.length h
    simp only [List.length_append, List.length_cons, List.length_nil] at hlength
    have hmore : more = [] := List.length_eq_zero_iff.mp (by omega)
    subst hmore
    have hname := (List.append_inj' h rfl).2
    exact .inl (List.cons.inj hname).1.symm
  · split at h
    · exact .inl (List.cons.inj (List.append_cancel_left h)).1.symm
    · exact .inr (List.cons.inj (List.append_cancel_left h)).1.symm

theorem exists_splitOn_of_head {gained : List Char} (h : gained.head? = some ';') :
    ∃ first rest, splitOn (· == '/') gained = (';' :: first) :: rest := by
  obtain ⟨tail, rfl⟩ := List.head?_eq_some_iff.mp h
  rw [splitOn_cons (by decide)]
  obtain ⟨first, rest, hparts⟩ := List.exists_cons_of_ne_nil (splitOn_ne_nil (· == '/') tail)
  rw [hparts]
  exact ⟨first, rest, rfl⟩

theorem written_ne_empty {name : List Char} (h : name ≠ []) : written name ≠ "" := by
  intro hempty
  have hnil : written name = written [] := hempty
  exact h (written_injective hnil)

/-- With a semicolon in it a segment is a name, whatever stands before the semicolon. -/
theorem appendSegment_append_semicolon (path : List String) (last : List Char) {first : List Char}
    (h : ∀ c ∈ ';' :: first, isIgnored c = false) :
    appendSegment path (last ++ ';' :: first) =
      directory path ++ [written (stripped last ++ ';' :: first)] := by
  have hne {s : List Char} (hs : ';' ∈ s) : s ≠ ['.'] ∧ s ≠ ['.', '.'] := by
    constructor <;> rintro rfl <;> simp at hs
  have hstripped : stripped (last ++ ';' :: first) = stripped last ++ ';' :: first := by
    rw [stripped, List.filter_append]
    exact congrArg (stripped last ++ ·) (stripped_of_forall h)
  have hdot : ¬IsDot (last ++ ';' :: first) := not_or.mpr (hne (by simp))
  obtain ⟨hsingle, hdouble⟩ := hne (s := stripped last ++ ';' :: first) (by simp)
  rw [appendSegment_of_not_isDot hdot, hstripped, if_neg hdouble, if_neg hsingle]

theorem foldl_appendSegment_of_gained (path : List String) (last : List Char) {gained : List Char}
    (hhead : gained.head? = some ';') (hplain : IsPlain gained) :
    ((splitOn (· == '/') gained).modifyHead (last ++ ·)).foldl appendSegment path =
      directory path ++
        ((splitOn (· == '/') gained).modifyHead (stripped last ++ ·)).map written := by
  obtain ⟨first, rest, hparts⟩ := exists_splitOn_of_head hhead
  have hunmixed := unmixed_of_isPlain hplain
  rw [hparts, List.forall_mem_cons] at hunmixed
  obtain ⟨⟨-, hfirst⟩, hrest⟩ := hunmixed
  have hstep := appendSegment_append_semicolon path last hfirst
  have hnames := names_eq_self hrest
  have hsettled : Settled rest := fun name hname => (hrest name (hnames ▸ hname)).1
  have hwritten : written (stripped last ++ ';' :: first) ≠ "" := written_ne_empty (by simp)
  rw [hparts, List.modifyHead_cons, List.modifyHead_cons, List.foldl_cons, hstep,
    foldl_appendSegment_of_settled (by simp)
      (by simp [List.append_eq_singleton_iff, hwritten]) hsettled, hnames, List.map_cons,
    List.append_assoc, List.singleton_append]

theorem modifyHead_append_injective (s : List Char) :
    Function.Injective (List.modifyHead (s ++ ·)) := by
  rintro (_ | ⟨first, rest⟩) (_ | ⟨first', rest'⟩) h <;> simp_all

/-- A segment as it is and the same segment with a suffix make different paths. -/
theorem appendSegment_ne_of_gained (path : List String) (last : List Char) {gained : List Char}
    (hhead : gained.head? = some ';') (hplain : IsPlain gained) :
    appendSegment path last ≠
      ((splitOn (· == '/') gained).modifyHead (last ++ ·)).foldl appendSegment path := by
  intro h
  obtain ⟨first, rest, hparts⟩ := exists_splitOn_of_head hhead
  rw [foldl_appendSegment_of_gained path last hhead hplain, hparts, List.modifyHead_cons,
    List.map_cons] at h
  rcases eq_of_appendSegment_eq h with hempty | hsame
  · exact written_ne_empty (by simp) hempty
  · simpa using written_injective hsame

theorem gained_eq_of_foldl_eq {path : List String} {last gained gained' : List Char}
    (hhead : gained.head? = none ∨ gained.head? = some ';') (hplain : IsPlain gained)
    (hhead' : gained'.head? = none ∨ gained'.head? = some ';') (hplain' : IsPlain gained')
    (h : ((splitOn (· == '/') gained).modifyHead (last ++ ·)).foldl appendSegment path =
      ((splitOn (· == '/') gained').modifyHead (last ++ ·)).foldl appendSegment path) :
    gained = gained' := by
  have hnone : ((splitOn (· == '/') []).modifyHead (last ++ ·)).foldl appendSegment path =
      appendSegment path last := by simp [splitOn]
  rcases hhead with hnil | hsome <;> rcases hhead' with hnil' | hsome'
  · rw [List.head?_eq_none_iff.mp hnil, List.head?_eq_none_iff.mp hnil']
  · rw [List.head?_eq_none_iff.mp hnil, hnone] at h
    exact absurd h (appendSegment_ne_of_gained path last hsome' hplain')
  · rw [List.head?_eq_none_iff.mp hnil', hnone] at h
    exact absurd h.symm (appendSegment_ne_of_gained path last hsome hplain)
  · rw [foldl_appendSegment_of_gained path last hsome hplain,
      foldl_appendSegment_of_gained path last hsome' hplain'] at h
    have hwritten := List.map_injective_iff.mpr (fun _ _ => written_injective)
      (List.append_cancel_left h)
    exact splitOn_injective '/' (modifyHead_append_injective _ hwritten)

end Url

namespace View

theorem pathText_decorate_eq_iff {text : String} {base : Url} {toAscii : Url.ToAscii}
    (hbase : Config.parseBaseUrl text toAscii = .ok base) {endpoint : String}
    (hendpoint : endpoint ++ ".json" ∈ Operation.fileNames) (target : String) {view other : View}
    (hplain : Url.IsPlain view.mark) (hplain' : Url.IsPlain other.mark) :
    (endpointUrl base endpoint (view.decorate target)).pathText =
        (endpointUrl base endpoint (other.decorate target)).pathText ↔
      view.mark = other.mark := by
  constructor
  · intro h
    obtain ⟨-, -, hslash⟩ := Url.ordinary_of_mem_fileNames hendpoint
    have hroot : Url.Slashless (Url.directory base.path ++ [endpoint ++ ".json"]) :=
      (Config.slashless_of_parseBaseUrl hbase).directory.append (Url.slashless_singleton hslash)
    rw [endpointUrl_eq hbase hendpoint, endpointUrl_eq hbase hendpoint] at h
    have hpath := Url.writePath_injective (hroot.foldl_appendSegment _)
      (hroot.foldl_appendSegment _) h
    obtain ⟨front, last, -, happend⟩ := Url.exists_splitOn_append (· == '/') (namedPath target)
    rw [targetSegments_decorate, targetSegments_decorate, happend, happend, List.foldl_append,
      List.foldl_append] at hpath
    exact Url.gained_eq_of_foldl_eq view.head?_mark hplain other.head?_mark hplain' hpath
  · intro h
    rw [decorate_eq, decorate_eq, h]

/-- The version and the site as they are given. -/
def texts (view : View) : List String :=
  view.version.toList ++ view.site.toList

theorem mem_suffix_iff {c : Char} {sign : List Char} (h : c ∉ sign) (text : Option String) :
    c ∈ suffix sign text ↔ ∃ part ∈ text, c ∈ part.toList := by
  cases text with
  | none => simp [suffix]
  | some part => by_cases hpart : part = "" <;> simp [suffix, hpart, h]

theorem slash_notMem_mark_iff {view : View} :
    '/' ∉ view.mark ↔ ∀ text ∈ view.texts, '/' ∉ text.toList := by
  rw [mark, List.mem_append, mem_suffix_iff (by decide), mem_suffix_iff (by decide), texts,
    List.forall_mem_append]
  simp

theorem gained_eq_mark {view : View} {target : String} {front : List (List Char)}
    {last gained : List Char} (hlast : targetSegments (normalizeTarget target) = front ++ [last])
    (hgained : targetSegments (view.decorate target) = front ++ [last ++ gained]) :
    gained = view.mark := by
  have hslash : '/' ∉ view.mark := keepsSegments_iff.mp ⟨front, last, gained, hlast, hgained⟩
  obtain ⟨front', last', hsplit, happend⟩ :=
    Url.exists_splitOn_append (· == '/') (namedPath target)
  rw [targetSegments_normalizeTarget, hsplit] at hlast
  obtain ⟨rfl, hsame⟩ := List.append_inj' hlast rfl
  rw [targetSegments_decorate, happend, Url.splitOn_of_notMem hslash] at hgained
  have hsegments : last' ++ view.mark = last ++ gained :=
    (List.cons.inj (List.append_cancel_left hgained)).1
  rw [(List.cons.inj hsame).1] at hsegments
  exact (List.append_cancel_left hsegments).symm

/-- A view adds a suffix to the last segment exactly if neither its version nor its site has a
slash.  If the version has no sign of a site in it, version and site can be read from what stands
behind the first semicolon of that segment, unless the target has one there itself.  Two views
decorate a target alike exactly if they ask for the same, or the version of one continues that of
the other into its site; and as long as there are no dot segments, tabs and line ends in their
suffixes, just these views have the same path. -/
theorem decorate_selects {text : String} {base : Url} {toAscii : Url.ToAscii}
    (hbase : Config.parseBaseUrl text toAscii = .ok base) {endpoint : String}
    (hendpoint : endpoint ++ ".json" ∈ Operation.fileNames) (target : String)
    (view other : View) :
    (view.KeepsSegments target ↔ ∀ text ∈ view.texts, '/' ∉ text.toList) ∧
      (∀ front last gained, targetSegments (normalizeTarget target) = front ++ [last] →
        targetSegments (view.decorate target) = front ++ [last ++ gained] → ';' ∉ last →
        (∀ version ∈ view.version, ¬[';', 's', '='] <:+: version.toList) →
        readMark ((last ++ gained).dropWhile (· ≠ ';')) = (asked view.version, asked view.site)) ∧
      (view.decorate target = other.decorate target ↔
        view.Same other ∨ view.Continues other ∨ other.Continues view) ∧
      (Url.IsPlain view.mark → Url.IsPlain other.mark →
        ((endpointUrl base endpoint (view.decorate target)).pathText =
            (endpointUrl base endpoint (other.decorate target)).pathText ↔
          view.Same other ∨ view.Continues other ∨ other.Continues view)) := by
  refine ⟨?_, ?_, ?_, ?_⟩
  · rw [keepsSegments_iff, slash_notMem_mark_iff]
  · intro front last gained hlast hgained hplain hversion
    have hmark : (last ++ view.mark).dropWhile (· ≠ ';') = view.mark := by
      have hbefore : ∀ c ∈ last, decide (c ≠ ';') = true := by
        intro c hc
        simpa using fun heq : c = ';' => hplain (heq ▸ hc)
      rw [List.dropWhile_append_of_pos hbefore, view.dropWhile_mark (by decide)]
    rw [gained_eq_mark hlast hgained, hmark, readMark_mark hversion]
  · rw [decorate_eq, decorate_eq, List.append_cancel_left_eq, mark_eq_iff]
  · intro hplain hplain'
    rw [pathText_decorate_eq_iff hbase hendpoint target hplain hplain', mark_eq_iff]

/-- A version and a site, and a version that looks like both. -/
theorem decorate_selects_current :
    let base : Url := ⟨"http", "", "localhost", some 8080, ["r"], none, none⟩
    let view : View := ⟨some "current", some "SLAC"⟩
    let other : View := ⟨some "current;s=SLAC", some ""⟩
    view.KeepsSegments "EXO/Data" ∧
      readMark (("Data".toList ++ view.mark).dropWhile (· ≠ ';')) =
        (some "current", some "SLAC") ∧
      view.decorate "EXO/Data" = other.decorate "EXO/Data" ∧
      (endpointUrl base "path" (view.decorate "EXO/Data")).pathText =
        (endpointUrl base "path" (other.decorate "EXO/Data")).pathText ∧
      (endpointUrl base "path" (view.decorate "EXO/Data")).pathText ≠
        (endpointUrl base "path" (normalizeTarget "EXO/Data")).pathText := by
  intro base view other
  have hbase : Config.parseBaseUrl "http://localhost:8080/r" = .ok base := rfl
  have hendpoint : "path" ++ ".json" ∈ Operation.fileNames := by decide
  have hcontinues : view.Continues other := ⟨"current", "SLAC", rfl, rfl, rfl⟩
  obtain ⟨hkeeps, hread, htarget, hpath⟩ :=
    decorate_selects hbase hendpoint "EXO/Data" view other
  obtain ⟨-, -, -, hbare⟩ := decorate_selects hbase hendpoint "EXO/Data" view ⟨none, none⟩
  refine ⟨hkeeps.mpr (by decide), ?_, htarget.mpr (.inr (.inl hcontinues)),
    (hpath (by decide) (by decide)).mpr (.inr (.inl hcontinues)), ?_⟩
  · exact hread ["EXO".toList] "Data".toList view.mark (by decide) (by decide) (by decide)
      (by decide)
  · intro hsame
    have hmark : view.mark = (⟨none, none⟩ : View).mark :=
      mark_eq_iff.mpr ((hbare (by decide) (by decide)).mp hsame)
    exact absurd hmark (by decide)

/-- A view may add segments to a target, and it may look like another view. -/
theorem not_forall_selects :
    (¬ ∀ (target : String) (view : View),
        (∀ segment ∈ (targetSegments (normalizeTarget target)).getLast?, ';' ∉ segment) →
        view.KeepsSegments target) ∧
      ¬ ∀ (text : String) (base : Url) (endpoint target : String) (view other : View),
        Config.parseBaseUrl text = .ok base → endpoint ++ ".json" ∈ Operation.fileNames →
        (∀ segment ∈ (targetSegments (normalizeTarget target)).getLast?, ';' ∉ segment) →
        (endpointUrl base endpoint (view.decorate target)).pathText =
          (endpointUrl base endpoint (other.decorate target)).pathText → view.Same other := by
  constructor
  · intro hall
    have hkeeps := hall "/a" ⟨some "1/2", none⟩ (by decide)
    exact absurd (keepsSegments_iff.mp hkeeps) (by decide)
  · intro hall
    have hsame := hall "http://localhost:8080/r"
      ⟨"http", "", "localhost", some 8080, ["r"], none, none⟩ "path" "/a" ⟨some "1;s=x", none⟩
      ⟨some "1", some "x"⟩ rfl (by decide) (by decide) rfl
    exact absurd hsame.1 (by decide)

end View
end DataCatalog
