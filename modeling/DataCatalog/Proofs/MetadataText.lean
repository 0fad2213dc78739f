import DataCatalog.Proofs.Depth
import DataCatalog.Proofs.Encodable
import DataCatalog.Proofs.RereadDoubles

/-!
# Metadata between packing and unpacking

Packed metadata is unpacked as a list of its entries, with any default kind, and they make metadata
with the same keys in the same order.  Whole numbers and texts are the same, and decimals are what
is read from their digits.  So finite metadata survives exactly if each of its decimals does.
-/

namespace DataCatalog

/-- The scalar that is read where this one has been written. -/
def Scalar.reread : Scalar → Scalar
  | .decimal (.finite x) => .decimal (.finite x.reread)
  | s => s

@[simp] theorem Scalar.kind_reread (s : Scalar) : s.reread.kind = s.kind := by
  unfold reread
  split <;> rfl

namespace Metadata

/-- The metadata that is read where this has been written. -/
def reread (m : Metadata) : Metadata where
  entries := m.entries.map fun entry => (entry.1, entry.2.reread)
  distinct := by simpa [Entries.keys, Function.comp_def] using m.distinct

theorem keys_reread (m : Metadata) : m.reread.keys = m.keys := by
  simp [reread, OrderedMap.keys, Entries.keys, Function.comp_def]

/-- Metadata as the list of its entries. -/
def toPairs (m : Metadata) : Decoded :=
  .list (m.entries.map fun entry => .pair entry.1 entry.2)

end Metadata

/-- The metadata entry that was read, if it was one. -/
def Decoded.toPair? : Decoded → Option (String × Scalar)
  | .pair key value => some (key, value)
  | _ => none

/-- The metadata that a list of entries makes. -/
def Decoded.toMetadata? : Decoded → Option Metadata
  | .list items => (items.mapM toPair?).map .ofList
  | _ => none

namespace Metadata

theorem toMetadata?_toPairs (m : Metadata) : m.toPairs.toMetadata? = some m := by
  have hentries : (m.entries.map fun entry => Decoded.pair entry.1 entry.2).mapM Decoded.toPair? =
      some m.entries := by
    rw [List.mapM_map]
    exact (List.mapM_pure (m := Option) (f := id)).trans (congrArg some (List.map_id _))
  rw [toPairs, Decoded.toMetadata?, hentries, Option.map_some, OrderedMap.ofList_entries]

theorem reread_eq_iff {m : Metadata} :
    m.reread = m ↔ ∀ key x, (key, .decimal (.finite x)) ∈ m.entries → x.reread = x := by
  have hentries : m.reread = m ↔
      m.entries.map (fun entry => (entry.1, entry.2.reread)) = m.entries.map id := by
    rw [List.map_id]
    exact ⟨fun heq => congrArg OrderedMap.entries heq, fun heq => OrderedMap.ext_entries heq⟩
  rw [hentries, List.map_inj_left]
  constructor
  · intro h key x hmem
    have hentry := h _ hmem
    simpa [Scalar.reread] using hentry
  · rintro h ⟨key, s⟩ hmem
    unfold Scalar.reread
    split
    · next x hs =>
        dsimp only at hs
        subst hs
        rw [h key x hmem]
        rfl
    · rfl

end Metadata

namespace Json

theorem reread_ofInt64 (n : Int64) : (ofInt64 n).reread = .ofInt64 n := by
  rw [ofInt64, reread, Number.ofInt64, Number.reread_integer]

end Json

namespace Codec

variable {c : Codec}

theorem encodeScalar_reread {s : Scalar} {value : Json} (h : encodeScalar s = .ok value) :
    encodeScalar s.reread = .ok value.reread := by
  cases s with
  | integer n =>
      cases h
      rw [Scalar.reread, Json.reread_ofInt64]
      · rfl
      · simp
  | text t =>
      cases h
      rfl
  | decimal x =>
      cases x with
      | finite x =>
          cases h
          rw [Scalar.reread, Json.reread, Json.Number.reread_float]
          rfl
      | nan => cases h
      | infinite negative => cases h

theorem encodeTriple_reread {entry : String × Scalar} {triple : Json}
    (h : c.encodeTriple entry = .ok triple) :
    c.encodeTriple (entry.1, entry.2.reread) = .ok triple.reread := by
  obtain ⟨tag, value, htag, hvalue, rfl⟩ := encodeTriple_eq_ok_iff.mp h
  refine encodeTriple_eq_ok_iff.mpr ⟨tag, value.reread, ?_, encodeScalar_reread hvalue, rfl⟩
  rwa [Scalar.kind_reread]

theorem encodeMetadata_reread {m : Metadata} {value : Json} (h : c.encodeMetadata m = .ok value) :
    c.encodeMetadata m.reread = .ok value.reread := by
  obtain ⟨triples, htriples, rfl⟩ := encodeMetadata_eq_ok_iff.mp h
  refine encodeMetadata_eq_ok_iff.mpr ⟨triples.map Json.reread, ?_, ?_⟩
  · rw [mapM_eq_ok_iff] at htriples ⊢
    rw [Metadata.reread, List.forall₂_map_left_iff, List.forall₂_map_right_iff]
    exact htriples.imp fun _ _ => encodeTriple_reread
  · rw [Json.reread, Json.rereadItems_eq_map]

theorem decode_of_encodeTriple (hcoherent : c.types.Coherent) {entry : String × Scalar}
    {triple : Json} (h : c.encodeTriple entry = .ok triple) :
    c.decode triple = .ok (.pair entry.1 entry.2) := by
  obtain ⟨tag, value, htag, hvalue, rfl⟩ := encodeTriple_eq_ok_iff.mp h
  have hkind : c.types.kindFor? tag = some entry.2.kind := hcoherent _ _ htag
  rw [decode_object_of_triple (role_tripleMembers hkind),
    readTriple_tripleMembers hkind (ofJson?_of_encodeScalar hvalue), map_ok]

/-- Written metadata is read as the list of its entries. -/
theorem decode_of_encodeMetadata (hcoherent : c.types.Coherent) {m : Metadata} {value : Json}
    (h : c.encodeMetadata m = .ok value) :
    c.decode value = .ok m.toPairs := by
  obtain ⟨triples, htriples, rfl⟩ := encodeMetadata_eq_ok_iff.mp h
  have hpairs : triples.mapM c.decode =
      .ok (m.entries.map fun entry => .pair entry.1 entry.2) := by
    rw [mapM_eq_ok_iff] at htriples ⊢
    rw [List.forall₂_map_right_iff]
    exact htriples.flip.imp fun _ _ => decode_of_encodeTriple hcoherent
  rw [decode_array, hpairs, map_ok, Metadata.toPairs]

/-- Packed metadata that is finite is unpacked as the list of what is read where its entries have
been written. -/
theorem unpack_packed_metadata (hcomplete : c.types.Complete) (hcoherent : c.types.Coherent)
    {m : Metadata} (h : m.IsFinite) :
    ∃ text, (Packable.metadata m).pack c = .ok text ∧ c.unpack text = .ok m.reread.toPairs := by
  obtain ⟨value, hvalue⟩ := encodeMetadata_succeeds hcomplete h
  have hdepth : value.depth < Json.depthLimit :=
    (depth_of_encodeMetadata hvalue).trans_lt (by decide)
  have hparse : Json.parse value.render = .ok value.reread :=
    Json.parse_render_reread (wellFormed_of_encodeMetadata hvalue) hdepth
  refine ⟨value.render, ?_, ?_⟩
  · rw [Packable.pack, Packable.encode, hvalue, map_ok]
  · rw [unpack, hparse]
    exact decode_of_encodeMetadata hcoherent (encodeMetadata_reread hvalue)

end Codec

namespace Metadata

open Json

/-- Finite metadata can be packed and unpacked.  It comes back with its keys in their order, its
whole numbers and its texts, and with the decimals that are read from the digits of its own.  The
nearest double to these digits is the decimal that was written, but another one may be read.  The
right one is read where digits and power of ten are doubles, and metadata comes back as it was
exactly if the right one is read for each of its decimals. -/
theorem unpack_pack_reread (kind : Option EntityKind) {m : Metadata} (h : m.IsFinite) :
    ∃ text d, (Packable.metadata m).pack ⟨.standard, kind⟩ = .ok text ∧
      Codec.unpack ⟨.standard, kind⟩ text = .ok d ∧ d.toMetadata? = some m.reread ∧
      m.reread.keys = m.keys ∧
      (m.reread = m ↔ ∀ key x, (key, .decimal (.finite x)) ∈ m.entries → x.reread = x) ∧
      ∀ key x, (key, .decimal (.finite x)) ∈ m.entries →
        (Number.decimal x.units).roundedUnits = x.units ∧
          ((Number.decimal x.units).gathered.RoundsOnce → x.reread = x) := by
  obtain ⟨text, hpack, hunpack⟩ := Codec.unpack_packed_metadata (c := ⟨.standard, kind⟩)
    TypeTable.complete_standard TypeTable.coherent_standard h
  refine ⟨text, _, hpack, hunpack, m.reread.toMetadata?_toPairs, m.keys_reread, reread_eq_iff, ?_⟩
  intro key x _
  exact ⟨Number.roundedUnits_decimal x.exact, Binary64.Finite.reread_of_roundsOnce⟩

/-- A decimal with a point and one with an exponent survive. -/
theorem unpack_pack_reread_mixed :
    let gain : Binary64.Finite :=
      ⟨true, Binary64.one / 4, by decide +kernel, by decide +kernel⟩
    let events : Binary64.Finite :=
      ⟨false, 12000000000000000000 * Binary64.one, by decide +kernel, by decide +kernel⟩
    let m : Metadata := .ofList [("run", .integer (-7)), ("gain", .decimal (.finite gain)),
      ("site", .text "SLAC"), ("events", .decimal (.finite events))]
    m.IsFinite ∧ ∃ text d, (Packable.metadata m).pack {} = .ok text ∧
      Codec.unpack {} text = .ok d ∧ d.toMetadata? = some m := by
  intro gain events m
  have hfinite : m.IsFinite := by
    apply Codec.isFinite_ofList
    simp only [List.forall_mem_cons]
    exact ⟨trivial, rfl, trivial, rfl, List.forall_mem_nil _⟩
  obtain ⟨text, d, hpack, hunpack, hresult, -, hsame, hdecimals⟩ :=
    unpack_pack_reread none hfinite
  have hreread : m.reread = m := by
    rw [hsame]
    intro key x hmem
    apply (hdecimals key x hmem).2
    have hentries : m.entries = [("run", .integer (-7)), ("gain", .decimal (.finite gain)),
      ("site", .text "SLAC"), ("events", .decimal (.finite events))] := rfl
    rw [hentries] at hmem
    simp only [List.mem_cons, Prod.mk.injEq, reduceCtorEq, and_false, false_or, or_false,
      List.not_mem_nil, Scalar.decimal.injEq, Binary64.finite.injEq] at hmem
    rcases hmem with ⟨-, rfl⟩ | ⟨-, rfl⟩
    · decide +kernel
    · decide +kernel
  rw [hreread] at hresult
  exact ⟨hfinite, text, d, hpack, hunpack, hresult⟩

/-- The greatest whole number of 53 bits comes back as the one before it. -/
theorem not_forall_unpack_pack_same :
    ¬∀ m : Metadata, m.IsFinite → ∃ text d, (Packable.metadata m).pack {} = .ok text ∧
      Codec.unpack {} text = .ok d ∧ d.toMetadata? = some m := by
  intro hall
  let x : Binary64.Finite :=
    ⟨false, 9007199254740991 * Binary64.one, by decide +kernel, by decide +kernel⟩
  let m : Metadata := .ofList [("a", .decimal (.finite x))]
  have hfinite : m.IsFinite := Codec.isFinite_ofList (by simp [Scalar.IsFinite, Binary64.isFinite])
  have hread : x.reread.units = 9007199254740990 * Binary64.one := by decide +kernel
  obtain ⟨text, d, hpack, hunpack, hresult⟩ := hall m hfinite
  obtain ⟨text', hpack', hunpack'⟩ :=
    Codec.unpack_packed_metadata (c := {}) TypeTable.complete_standard
      TypeTable.coherent_standard hfinite
  rw [hpack] at hpack'
  cases hpack'
  rw [hunpack] at hunpack'
  cases hunpack'
  rw [toMetadata?_toPairs] at hresult
  have hsame : x.reread = x :=
    reread_eq_iff.mp (Option.some.inj hresult) "a" x List.mem_cons_self
  rw [hsame] at hread
  exact absurd hread (by decide +kernel)

end Metadata

end DataCatalog
