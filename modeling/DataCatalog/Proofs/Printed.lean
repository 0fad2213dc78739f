import DataCatalog.Proofs.AllOrNothing
import DataCatalog.Proofs.Reopening

/-!
# Reading what has been printed

A document that is unpacked is printed in canonical form, and this text can be unpacked in turn,
with the same default kind, by the library and by a second run of the program.  There is one
exception: the document that was read may nest as deep as the reader goes, and its canonical form
one level deeper, if metadata is a plain object at the innermost place.
-/

namespace DataCatalog

/-- The error for a text that nests too deeply. -/
def nestingError : Error :=
  (Cause.invalidJson .tooDeep).error

namespace Codec

section Texts

variable {c : Codec} {text : String} {written : Json} {blanks : List Char}

/-- A written document is decoded if it does not nest too deeply. -/
theorem unpack_written (hdistinct : written.WellFormed)
    (hblanks : ∀ b ∈ blanks, Json.isSpace b = true) (h : text.toList = written.write ++ blanks)
    (hdepth : written.depth ≤ 127) : c.unpack text = c.decode written.reread := by
  have hlimit : written.depth < Json.depthLimit := Nat.lt_succ_of_le hdepth
  rw [unpack, Json.parse, h, Json.parseChars_write hdistinct hblanks, if_pos hlimit]

theorem unpack_written_of_lt (hdistinct : written.WellFormed)
    (hblanks : ∀ b ∈ blanks, Json.isSpace b = true) (h : text.toList = written.write ++ blanks)
    (hdepth : 127 < written.depth) : c.unpack text = .error nestingError := by
  have hlimit : ¬written.depth < Json.depthLimit := Nat.not_lt.mpr hdepth
  rw [unpack, Json.parse, h, Json.parseChars_write hdistinct hblanks, if_neg hlimit, nestingError]

end Texts

theorem exists_decode_of_unpack {c : Codec} {text : String} {d : Decoded}
    (h : c.unpack text = .ok d) :
    ∃ document, Json.parse text = .ok document ∧ c.decode document = .ok d := by
  unfold unpack at h
  split at h
  · cases h
  · next document hparse => exact ⟨document, hparse, h⟩

end Codec

namespace CommandLine

open Progression

/-- The arguments ask to unpack this text with this default kind. -/
def Unpacks (surroundings : Surroundings) (arguments : List String)
    (defaultKind : Option EntityKind) (text : String) : Prop :=
  ∃ invocation file, Invocation.ofArguments arguments = .ok invocation ∧
    invocation.command = .unpack file defaultKind ∧ readDocument surroundings file = .ok text

section Runs

variable {surroundings : Surroundings} {arguments : List String} {defaultKind : Option EntityKind}
  {text : String}

theorem exists_settles_of_unpacks (h : Unpacks surroundings arguments defaultKind text) :
    ∃ progression : Progression, run surroundings arguments = progression.outcome ∧
      progression.Settles (((Codec.mk .standard defaultKind).unpack text >>=
        (Codec.mk .standard defaultKind).encode).map fun document => [document]) := by
  obtain ⟨invocation, file, harguments, hcommand, htext⟩ := h
  refine ⟨perform surroundings invocation, by rw [run, harguments], ?_⟩
  have hsettles := perform_settles surroundings invocation
  have hanswer : answer surroundings invocation =
      (unpackDocument surroundings file defaultKind).map fun document => [document] := by
    rw [answer, hcommand]
  have hdocument : unpackDocument surroundings file defaultKind =
      (Codec.mk .standard defaultKind).unpack text >>=
        (Codec.mk .standard defaultKind).encode := by
    rw [unpackDocument, htext, ok_bind]
  rw [hanswer, hdocument] at hsettles
  exact hsettles

theorem prints_of_unpacks (h : Unpacks surroundings arguments defaultKind text) {d : Decoded}
    (hread : (Codec.mk .standard defaultKind).unpack text = .ok d) {written : Json}
    (hwritten : (Codec.mk .standard defaultKind).encode d = .ok written) :
    (run surroundings arguments).Prints [written] := by
  obtain ⟨progression, hrun, hsettles⟩ := exists_settles_of_unpacks h
  rw [hread, ok_bind, hwritten, map_ok] at hsettles
  rw [hrun]
  exact hsettles.prints

theorem fails_of_unpacks (h : Unpacks surroundings arguments defaultKind text) {e : Error}
    (hread : (Codec.mk .standard defaultKind).unpack text = .error e) :
    (run surroundings arguments).Fails e := by
  obtain ⟨progression, hrun, hsettles⟩ := exists_settles_of_unpacks h
  rw [hread, error_bind, map_error] at hsettles
  rw [hrun]
  exact hsettles.fails

end Runs

/-- The text that a run prints of one document: the document and a line end. -/
theorem toList_printed {outcome : Outcome} {document : Json} (h : outcome.Prints [document]) :
    outcome.printed.toList = document.write ++ ['\n'] := by
  rw [h.printed]
  simp [unlines, Json.render, String.join]

end CommandLine

/-- What is unpacked and packed can be unpacked once more, unless the canonical form nests deeper
than the reader goes; and it nests at most one level deeper than what was read.  The same holds for
a run of the program on what another run has printed. -/
theorem Codec.unpack_printed {c : Codec} (hstandard : c.types = .standard) {text packed : String}
    {d : Decoded} (hread : c.unpack text = .ok d) (hpacked : c.pack d = .ok packed) :
    ∃ document written, Json.parse text = .ok document ∧ c.encode d = .ok written ∧
      packed = written.render ∧ document.depth ≤ 127 ∧ written.depth ≤ document.depth + 1 ∧
      (written.depth ≤ 127 → ∃ d', c.unpack packed = .ok d') ∧
      (127 < written.depth → c.unpack packed = .error nestingError) ∧
      ∀ first arguments second arguments',
        CommandLine.Unpacks first arguments c.defaultKind text →
        CommandLine.Unpacks second arguments' c.defaultKind
          (CommandLine.run first arguments).printed →
        (CommandLine.run first arguments).Prints [written] ∧
        (written.depth ≤ 127 → ∃ again, (CommandLine.run second arguments').Prints [again]) ∧
        (127 < written.depth → (CommandLine.run second arguments').Fails nestingError) := by
  obtain ⟨types, defaultKind⟩ := c
  obtain rfl : types = .standard := hstandard
  obtain ⟨document, hparse, hdecode⟩ := exists_decode_of_unpack hread
  obtain ⟨written, hwritten, rfl⟩ := map_eq_ok_iff.mp hpacked
  have hdistinct : written.WellFormed := wellFormed_of_decode hdecode hwritten
  obtain ⟨d', hd'⟩ := decode_reread_succeeds TypeTable.complete_standard
    TypeTable.coherent_standard defaultKind defaultKind hdecode hwritten
  have hfinite : d'.IsFinite :=
    ((finiteReading TypeTable.complete_standard).decode written.reread).result hd'
  obtain ⟨again, hagain⟩ := encode_succeeds (c := ⟨.standard, defaultKind⟩)
    TypeTable.complete_standard hfinite
  have hpackedText : written.render.toList = written.write ++ [] := by
    rw [Json.render, String.toList_ofList, List.append_nil]
  have hfits : document.Fits 127 := Json.fits_of_parse hparse
  have hdeeper : written.depth ≤ document.depth + 1 := depth_of_decode hdecode hwritten
  refine ⟨document, written, hparse, hwritten, rfl, hfits.2, hdeeper, fun hdepth => ⟨d', ?_⟩,
    fun hdepth => ?_, ?_⟩
  · rw [unpack_written hdistinct (List.forall_mem_nil _) hpackedText hdepth, hd']
  · exact unpack_written_of_lt hdistinct (List.forall_mem_nil _) hpackedText hdepth
  · intro first arguments second arguments' hfirst hsecond
    have hprints : (CommandLine.run first arguments).Prints [written] :=
      CommandLine.prints_of_unpacks hfirst hread hwritten
    have hprinted : (CommandLine.run first arguments).printed.toList = written.write ++ ['\n'] :=
      CommandLine.toList_printed hprints
    have hline : ∀ b ∈ ['\n'], Json.isSpace b = true := by simp [Json.isSpace]
    refine ⟨hprints, fun hdepth => ⟨again, ?_⟩, fun hdepth => ?_⟩
    · apply CommandLine.prints_of_unpacks hsecond _ hagain
      rw [unpack_written hdistinct hline hprinted hdepth, hd']
    · apply CommandLine.fails_of_unpacks hsecond
      exact unpack_written_of_lt hdistinct hline hprinted hdepth

/-- A run on an untagged object whose metadata is a plain object with a double, and a run on what
this one has printed. -/
theorem Codec.unpack_printed_plain :
    let text := " \x7b\"run\": [], \"metadata\": \x7b\"gain\": 2.50\x7d\x7d"
    let surroundings (input : String) : CommandLine.Surroundings :=
      { environment := {}, file := fun _ => .error .missing, input := some input
        service := fun _ => .reply ⟨200, .text ""⟩ }
    let arguments := ["unpack", "--default-type", "group"]
    ∃ written again,
      (CommandLine.run (surroundings text) arguments).Prints [written] ∧
      (CommandLine.run (surroundings (CommandLine.run (surroundings text) arguments).printed)
        arguments).Prints [again] := by
  intro text surroundings arguments
  let c : Codec := ⟨.standard, some .group⟩
  have hfirst : CommandLine.Unpacks (surroundings text) arguments c.defaultKind text :=
    ⟨_, none, rfl, rfl, rfl⟩
  have hsecond (printed : String) :
      CommandLine.Unpacks (surroundings printed) arguments c.defaultKind printed :=
    ⟨_, none, rfl, rfl, rfl⟩
  obtain ⟨packed, hresult⟩ : Succeeds (c.unpack text >>= c.pack) := .of_isOk (by decide +kernel)
  obtain ⟨d, hread, hpacked⟩ := bind_eq_ok_iff.mp hresult
  have hdepth : (Json.parse text).toOption.map Json.depth = some 2 := by decide +kernel
  obtain ⟨document, written, hparse, -, -, -, hdeeper, -, -, hruns⟩ :=
    unpack_printed rfl hread hpacked
  obtain ⟨hprints, hagain, -⟩ := hruns (surroundings text) arguments _ arguments hfirst (hsecond _)
  rw [hparse] at hdepth
  have hdocument : document.depth = 2 := Option.some.inj hdepth
  obtain ⟨again, hprinted⟩ := hagain (by omega)
  exact ⟨written, again, hprints, hprinted⟩

/-! ## The limit is reached -/

/-- The value inside of `n` arrays. -/
def Json.enclose : Nat → Json → Json
  | 0, value => value
  | n + 1, value => .array [enclose n value]

namespace Json

variable {value : Json}

theorem depth_enclose (n : Nat) (value : Json) : (enclose n value).depth = value.depth + n := by
  induction n with
  | zero => rfl
  | succ n ih =>
      rw [enclose, depth, itemsDepth, itemsDepth, ih]
      omega

theorem wellFormed_enclose (n : Nat) (h : value.WellFormed) : (enclose n value).WellFormed := by
  induction n with
  | zero => exact h
  | succ n ih => exact ⟨ih, trivial⟩

theorem floatFree_enclose (n : Nat) (h : value.FloatFree) : (enclose n value).FloatFree := by
  induction n with
  | zero => exact h
  | succ n ih => exact ⟨ih, trivial⟩

/-- Arrays are read and written as they are. -/
theorem decode_enclose {c : Codec} {value written : Json} {d : Decoded}
    (hread : c.decode value = .ok d) (hwritten : c.encode d = .ok written) (n : Nat) :
    ∃ d', c.decode (enclose n value) = .ok d' ∧ c.encode d' = .ok (enclose n written) := by
  induction n with
  | zero => exact ⟨d, hread, hwritten⟩
  | succ n ih =>
      obtain ⟨d', hd', hwritten'⟩ := ih
      refine ⟨.list [d'], ?_, ?_⟩
      · rw [enclose, Codec.decode_array, List.mapM_cons, hd']
        rfl
      · rw [enclose, Codec.encode, Codec.encodeAll_eq_mapM, List.mapM_cons, hwritten']
        rfl

end Json

/-- The text of a folder inside of 125 arrays, whose metadata is a plain object, can be unpacked and
packed: it nests 127 deep.  The packed text nests 128 deep and is refused. -/
theorem Codec.not_forall_unpack_printed :
    let folder : Json := .object [(Shape.tagKey, .string "folder"),
      ("metadata", .object [("a", .ofInt64 1)])]
    ¬ ∀ packed d, (Codec.mk .standard none).unpack (Json.enclose 125 folder).render = .ok d →
      (Codec.mk .standard none).pack d = .ok packed →
      ∃ d', (Codec.mk .standard none).unpack packed = .ok d' := by
  intro folder hall
  let tagged : Json := .object [(Shape.tagKey, .string "folder"),
    ("metadata", .array [.object (tripleMembers "a" (.ofInt64 1) "integer")])]
  obtain ⟨d, hdecode, hwritten⟩ : ∃ d,
      (Codec.mk .standard none).decode (Json.enclose 125 folder) = .ok d ∧
        (Codec.mk .standard none).encode d = .ok (Json.enclose 125 tagged) :=
    Json.decode_enclose rfl rfl 125
  have hparse : Json.parse (Json.enclose 125 folder).render = .ok (Json.enclose 125 folder) := by
    apply Json.parse_render
    · exact Json.floatFree_enclose 125 ⟨trivial, ⟨trivial, trivial⟩, trivial⟩
    · exact Json.wellFormed_enclose 125 ⟨by decide, trivial, ⟨by decide, trivial, trivial⟩, trivial⟩
    · rw [Json.depth_enclose]
      decide
  have hread : (Codec.mk .standard none).unpack (Json.enclose 125 folder).render = .ok d := by
    rw [unpack, hparse]
    exact hdecode
  have hpacked : (Codec.mk .standard none).pack d = .ok (Json.enclose 125 tagged).render := by
    rw [pack, hwritten, map_ok]
  have hdepth : 127 < (Json.enclose 125 tagged).depth := by
    rw [Json.depth_enclose]
    decide
  have hrefused : (Codec.mk .standard none).unpack (Json.enclose 125 tagged).render =
      .error nestingError :=
    unpack_written_of_lt (wellFormed_of_decode hdecode hwritten) (List.forall_mem_nil _)
      (by rw [Json.render, String.toList_ofList, List.append_nil]) hdepth
  obtain ⟨d', hd'⟩ := hall _ d hread hpacked
  rw [hrefused] at hd'
  cases hd'

end DataCatalog
