import DataCatalog.Proofs.CreateRequest

/-!
# What cannot be written

Of all that an entry holds, only metadata may have no written form.  So an entry can be written
exactly if each of its metadata entries can, and what is said otherwise is said of the first one that
cannot: first those of its metadata, then those of its version metadata, then those of its locations,
one location after the other.  Extra fields are written as they are.
-/

namespace DataCatalog

variable {s : Shape}

def Record.metadata? (r : Record s) : Option Metadata :=
  r.get? .metadata

def Record.versionMetadata? (r : Record s) : Option Metadata :=
  r.get? .versionMetadata

/-- The metadata of an entry, in the order in which it is written. -/
def Entity.mappings : Entity → List Metadata
  | .dataset d =>
    d.metadata?.toList ++ d.versionMetadata?.toList ++
      d.locations.flatMap fun location => location.metadata?.toList
  | .folder r => r.metadata?.toList
  | .group r => r.metadata?.toList
  | .location r => r.metadata?.toList

def Entity.metadataEntries (e : Entity) : List (String × Scalar) :=
  e.mappings.flatMap OrderedMap.entries

namespace Record

theorem metadataOf_cons (r : Record s) (f : Field) (rest : List Field) :
    r.metadataOf (f :: rest) =
      ((r.get? f).bind f.type.metadata?).toList ++ r.metadataOf rest := by
  cases h : (r.get? f).bind f.type.metadata? <;> simp [metadataOf, h]

theorem metadataOf_singleton (r : Record s) :
    r.metadataOf [.metadata] = r.metadata?.toList := by
  rw [metadataOf_cons, metadata?]
  cases r.get? .metadata <;> rfl

theorem metadataOf_pair (r : Record s) :
    r.metadataOf [.metadata, .versionMetadata] =
      r.metadata?.toList ++ r.versionMetadata?.toList := by
  rw [metadataOf_cons, metadataOf_cons, metadata?, versionMetadata?]
  cases r.get? .metadata <;> cases r.get? .versionMetadata <;> rfl

theorem metadataOf_container (r : Container) :
    r.metadataOf Shape.container.fields = r.metadata?.toList := by
  have hfields : Shape.container.fields.filter (·.type = .metadata) = [.metadata] := by decide
  rw [← metadataOf_filter, hfields, metadataOf_singleton]

theorem metadataOf_location (r : Location) :
    r.metadataOf Shape.location.fields = r.metadata?.toList := by
  have hfields : Shape.location.fields.filter (·.type = .metadata) = [.metadata] := by decide
  rw [← metadataOf_filter, hfields, metadataOf_singleton]

theorem metadataOf_dataset (r : Record .dataset) :
    r.metadataOf Shape.dataset.fields = r.metadata?.toList ++ r.versionMetadata?.toList := by
  have hfields : Shape.dataset.fields.filter (·.type = .metadata) =
      [.metadata, .versionMetadata] := by decide
  rw [← metadataOf_filter, hfields, metadataOf_pair]

end Record

namespace Codec

/-- There is no tag for the type of the scalar, or the scalar is a double that is not finite. -/
def Unwritable (c : Codec) (entry : String × Scalar) : Prop :=
  c.types.tagFor? entry.2.kind = none ∨ ¬entry.2.IsFinite

variable {c : Codec} {entry : String × Scalar} {fault : Error}

/-! ## One metadata entry -/

theorem encodeScalar_error {s : Scalar} (h : encodeScalar s = .error fault) :
    ¬s.IsFinite ∧ fault.kind = .unsupportedType ∧ fault.path = none := by
  cases s with
  | integer n => simp [encodeScalar] at h
  | text s => simp [encodeScalar] at h
  | decimal x =>
      cases x with
      | finite x => simp [encodeScalar] at h
      | nan =>
          simp only [encodeScalar, Except.error.injEq] at h
          subst h
          simp [Scalar.IsFinite, Binary64.isFinite, Error.kind, Error.report, Cause.report,
            Cause.error]
      | infinite negative =>
          simp only [encodeScalar, Except.error.injEq] at h
          subst h
          simp [Scalar.IsFinite, Binary64.isFinite, Error.kind, Error.report, Cause.report,
            Cause.error]

theorem encodeTriple_error (h : c.encodeTriple entry = .error fault) :
    c.Unwritable entry ∧ fault.kind = .unsupportedType ∧ fault.field = some entry.1 ∧
      fault.path = none := by
  unfold encodeTriple at h
  split at h
  · next htag =>
      simp only [Except.error.injEq] at h
      subst h
      exact ⟨.inl htag, rfl, rfl, rfl⟩
  · split at h
    · next cause hscalar =>
        simp only [Except.error.injEq] at h
        subst h
        have hcause := encodeScalar_error hscalar
        exact ⟨.inr hcause.1, hcause.2.1, rfl, hcause.2.2⟩
    · cases h

theorem not_unwritable_of_encodeTriple {written : Json} (h : c.encodeTriple entry = .ok written) :
    ¬c.Unwritable entry := by
  rw [encodeTriple_eq_ok_iff] at h
  obtain ⟨tag, value, htag, hvalue, -⟩ := h
  rintro (hnone | hinfinite)
  · simp [htag] at hnone
  · rcases entry with ⟨key, s⟩
    cases s with
    | integer n => exact hinfinite trivial
    | text s => exact hinfinite trivial
    | decimal x =>
        cases x with
        | finite x => exact hinfinite rfl
        | nan => cases hvalue
        | infinite negative => cases hvalue

theorem encodeTriple_fails_iff :
    (∃ fault, c.encodeTriple entry = .error fault) ↔ c.Unwritable entry := by
  constructor
  · rintro ⟨fault, hfault⟩
    exact (encodeTriple_error hfault).1
  · intro hunwritable
    cases hwritten : c.encodeTriple entry with
    | error fault => exact ⟨fault, rfl⟩
    | ok written => exact absurd hunwritable (not_unwritable_of_encodeTriple hwritten)

/-! ## Entries of the catalog -/

theorem encodeRecord_failsAlike (r : Record s) :
    FailsAlike (c.encodeRecord r) ((r.metadataOf s.fields).mapM c.encodeMetadata) :=
  fun _ => encodeRecord_eq_error_iff

theorem encodeLocations_failsAlike (locations : List Location) :
    FailsAlike (c.encodeLocations locations)
      ((locations.flatMap fun location => location.metadata?.toList).mapM c.encodeMetadata) := by
  intro fault
  rw [FailsAlike.mapM_flatMap c.encodeMetadata _ locations fault, encodeLocations]
  split
  · next hnone => simp [hnone, pure, Except.pure]
  · simp only [bind_eq_error_iff, reduceCtorEq, and_false, exists_false, or_false]
    apply FailsAlike.mapM fun location => ?_
    rw [← Record.metadataOf_location]
    exact (encodeRecord_failsAlike location).map Json.object

theorem encodeDataset_failsAlike (d : Dataset) :
    FailsAlike (c.encodeDataset d) ((Entity.dataset d).mappings.mapM c.encodeMetadata) := by
  -- The named fields come first and the locations behind them, as in `Entity.mappings`.
  rw [Entity.mappings, List.mapM_append, ← Record.metadataOf_dataset]
  have hnamed : FailsAlike (c.encodeNamed d.toRecord Shape.dataset.fields)
      ((d.metadataOf Shape.dataset.fields).mapM c.encodeMetadata) :=
    fun _ => encodeNamed_eq_error_iff
  refine hnamed.bind fun _ _ => (encodeLocations_failsAlike d.locations).bind fun _ _ => ?_
  simp [FailsAlike, pure, Except.pure]

/-- Metadata is all that can keep an entry from being written. -/
theorem encodeEntity_failsAlike (c : Codec) (e : Entity) :
    FailsAlike (c.encodeEntity e) (e.metadataEntries.mapM c.encodeTriple) := by
  have hbody : FailsAlike (c.encodeBody e) (e.mappings.mapM c.encodeMetadata) := by
    cases e with
    | dataset d => exact encodeDataset_failsAlike d
    | folder r =>
        rw [Entity.mappings, ← Record.metadataOf_container]
        exact encodeRecord_failsAlike r
    | group r =>
        rw [Entity.mappings, ← Record.metadataOf_container]
        exact encodeRecord_failsAlike r
    | location r =>
        rw [Entity.mappings, ← Record.metadataOf_location]
        exact encodeRecord_failsAlike r
  have hentries : FailsAlike (e.mappings.mapM c.encodeMetadata)
      (e.mappings.mapM fun m => m.entries.mapM c.encodeTriple) :=
    FailsAlike.mapM fun m => FailsAlike.map (fun _ => Iff.rfl) Json.array
  intro fault
  rw [Entity.metadataEntries, FailsAlike.mapM_flatMap c.encodeTriple _ e.mappings fault,
    ← hentries fault, ← hbody fault, encodeEntity, map_eq_error_iff]

/-- An entry cannot be written exactly if one of its metadata entries cannot, and the error is that
of the first of these.  Nothing else that the entry holds makes a difference. -/
theorem encodeEntity_fails_iff (c : Codec) (e : Entity) :
    ((∃ fault, c.encodeEntity e = .error fault) ↔
        ∃ entry ∈ e.metadataEntries, c.Unwritable entry) ∧
      (∀ fault, c.encodeEntity e = .error fault →
        fault.kind = .unsupportedType ∧ fault.path = none ∧
          ∃ before entry after, e.metadataEntries = before ++ entry :: after ∧
            (∀ other ∈ before, ¬c.Unwritable other) ∧ c.Unwritable entry ∧
            fault.field = some entry.1) ∧
      ∀ other : Entity, other.metadataEntries = e.metadataEntries →
        FailsAlike (c.encodeEntity other) (c.encodeEntity e) := by
  have hfails := encodeEntity_failsAlike c e
  refine ⟨?_, ?_, ?_⟩
  · simp only [hfails _, mapM_fails_iff, encodeTriple_fails_iff]
  · intro fault hfault
    rw [hfails fault, mapM_eq_error_iff] at hfault
    obtain ⟨before, entry, after, hsplit, hbefore, hentry⟩ := hfault
    have hfault := encodeTriple_error hentry
    refine ⟨hfault.2.1, hfault.2.2.2, before, entry, after, hsplit, ?_, hfault.1, hfault.2.2.1⟩
    intro other hother
    obtain ⟨written, hwritten⟩ := hbefore other hother
    exact not_unwritable_of_encodeTriple hwritten
  · intro other hsame fault
    rw [encodeEntity_failsAlike c other fault, hfails fault, hsame]

end Codec

end DataCatalog
