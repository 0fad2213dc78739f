import DataCatalog.Proofs.AllOrNothing
import DataCatalog.Proofs.Assignments
import DataCatalog.Proofs.Precedence

/-!
# Entries that are made from the command line can be written

A number of an assignment is a whole number or a finite double; the names of infinities remain
texts.  So the body of a new entry can be written, and so can the entry that the service sends back.
Every step of a command that makes an entry fails for another reason than the want of a written
form, and therefore so does the command.
-/

namespace DataCatalog

/-! ## New entries hold finite doubles only -/

theorem FieldType.isFinite_of_ne_metadata {type : FieldType} (h : type ≠ .metadata)
    (value : type.Value) : type.IsFinite value := by
  cases type with
  | metadata => exact absurd rfl h
  | integer => trivial
  | text => trivial

namespace CommandLine

theorem obeys_withExtras {s : Shape} {r : Record s} (h : r.Obeys .finite)
    (fields : List (String × Json)) :
    (fields.foldl (fun body (key, value) => body.withExtra key value) r).Obeys .finite := by
  induction fields generalizing r with
  | nil => exact h
  | cons entry rest ih =>
      have hedit : (r.edit (.extra entry.1 entry.2)).Obeys .finite := h.edit trivial
      exact ih hedit

theorem obeys_describedContainer {name : String} {metadata fields : List String} {body : Container}
    (h : describedContainer name metadata fields = .ok body) : body.Obeys .finite := by
  obtain ⟨m, hm, hfields⟩ := bind_eq_ok_iff.mp h
  obtain ⟨extras, -, hbody⟩ := bind_eq_ok_iff.mp hfields
  cases hbody
  have hempty : (Record.empty : Container).Obeys .finite := Record.obeys_empty
  have hname := hempty.edit (e := .set .name (by decide) name) trivial
  have hmetadata := hname.edit (e := .set .metadata (by decide) m)
    (isFinite_of_metadataOfAssignments hm)
  exact obeys_withExtras hmetadata extras

theorem obeys_setIfGiven {r : Record .dataset} (h : r.Obeys .finite) {f : Field}
    (has : f ∈ Shape.dataset.fields) (htype : f.type ≠ .metadata) (value : Option f.Value) :
    (setIfGiven r f value has).Obeys .finite := by
  cases value with
  | none => exact h
  | some v => exact h.edit (e := .set f has v) (FieldType.isFinite_of_ne_metadata htype v)

theorem obeys_locationOfAssignment {text : String} {location : Location}
    (h : locationOfAssignment text = .ok location) : location.Obeys .finite := by
  obtain ⟨⟨site, resource⟩, -, rfl⟩ := map_eq_ok_iff.mp h
  have hempty : (Record.empty : Location).Obeys .finite := Record.obeys_empty
  have hsite := hempty.edit (e := .set .site (by decide) site) trivial
  exact hsite.edit (e := .set .resource (by decide) resource) trivial

theorem obeys_describedDataset {arguments : DatasetArguments} {body : Dataset}
    (h : describedDataset arguments = .ok body) : body.Obeys .finite := by
  obtain ⟨m, hm, hversion⟩ := bind_eq_ok_iff.mp h
  obtain ⟨v, hv, hrest⟩ := bind_eq_ok_iff.mp hversion
  obtain ⟨locations, hlocations, hbody⟩ := bind_eq_ok_iff.mp hrest
  cases hbody
  have hempty : (Record.empty : Record .dataset).Obeys .finite := Record.obeys_empty
  have hname := hempty.edit (e := .set .name (by decide) arguments.name) trivial
  have hmetadata := hname.edit (e := .set .metadata (by decide) m)
    (isFinite_of_metadataOfAssignments hm)
  have hversion := hmetadata.edit (e := .set .versionMetadata (by decide) v)
    (isFinite_of_metadataOfAssignments hv)
  constructor
  · have htyped := obeys_setIfGiven hversion (f := .dataType) (by decide) (by decide)
      arguments.dataType
    have hformatted := obeys_setIfGiven htyped (f := .fileFormat) (by decide) (by decide)
      arguments.fileFormat
    exact obeys_setIfGiven hformatted (f := .versionId) (by decide) (by decide) arguments.versionId
  · intro location hmem
    obtain ⟨text, -, htext⟩ := exists_mem_of_mapM_eq_ok hlocations hmem
    exact obeys_locationOfAssignment htext

end CommandLine

/-! ## No step fails for want of a written form -/

/-- The error is another one than that something has no written form. -/
def Error.NotOfWriting (e : Error) : Prop :=
  e.kind ≠ .unsupportedType

theorem Error.notOfWriting_of_usage {e : Error} (h : e.kind = .usage) : e.NotOfWriting := by
  simp [NotOfWriting, h]

theorem Reply.errorKind_ne_unsupportedType (status : Nat) :
    errorKind status ≠ .unsupportedType := by
  unfold errorKind
  repeat' split
  all_goals decide

theorem Reply.document_yields (reply : Reply) :
    Yields (fun _ => True) Error.NotOfWriting reply.document := by
  unfold document
  split
  · exact nofun
  · split
    · trivial
    · split
      · trivial
      · exact nofun

theorem Outcome.document_yields (outcome : Outcome) :
    Yields (fun _ => True) Error.NotOfWriting outcome.document := by
  cases outcome with
  | hungUp => exact nofun
  | unreachable => exact nofun
  | reply reply =>
      rcases Nat.lt_or_ge reply.status 400 with hlt | hle
      · rw [document_of_lt hlt]
        exact reply.document_yields
      · rw [document_of_le hle]
        exact Reply.errorKind_ne_unsupportedType reply.status

theorem Decoded.toEntity_yields (d : Decoded) :
    Yields (fun e => d = .entity e) Error.NotOfWriting d.toEntity := by
  cases d with
  | entity e => exact rfl
  | pair key value => exact nofun
  | list items => exact nofun
  | json value => exact nofun

theorem Dataset.kind_of_checkCreatable_error {members : List (String × Json)} {e : Error}
    (h : checkCreatable members = .error e) : e.kind = .usage := by
  unfold checkCreatable at h
  split at h
  · cases h
  · cases h
    rfl

namespace Client

variable {α : Type} {good : α → Prop}

theorem exchange_yields (service : Service) (path : String) (request : Request)
    {result : Json → Except Error α} (h : ∀ value, Yields good Error.NotOfWriting (result value)) :
    Yields good Error.NotOfWriting (exchange service path request result).result := by
  have hdocument := (service request).document_yields
  unfold exchange
  dsimp only
  cases hread : (service request).document with
  | error e =>
      rw [hread] at hdocument
      exact hdocument
  | ok value => exact h value

/-- The entry that the service has made can be printed. -/
theorem readCreated_yields {client : Client} (hcomplete : client.codec.types.Complete)
    (kind : EntityKind) (value : Json) :
    Yields (fun e => Succeeds (({ } : Codec).encodeEntity e)) Error.NotOfWriting
      (client.readCreated kind value) := by
  let c : Codec := { client.codec with defaultKind := some kind }
  have hcomplete' : c.types.Complete := hcomplete
  have hread : Yields Decoded.IsFinite Error.OfReading (c.decode value) :=
    (Codec.finiteReading hcomplete').decode value
  refine .of_forall (fun e he => ?_) fun fault hfault => ?_
  · obtain ⟨d, hd, hentity⟩ := bind_eq_ok_iff.mp he
    rw [d.toEntity_yields.result hentity] at hd
    exact Codec.encodeEntity_of_decode hcomplete' TypeTable.complete_standard hd
  · rcases bind_eq_error_iff.mp hfault with hdecode | ⟨d, -, hentity⟩
    · exact (hread.fault hdecode).ne_unsupportedType
    · exact d.toEntity_yields.fault hentity

theorem createContainer_yields {client : Client} (hcomplete : client.codec.types.Complete)
    (service : Service) (parent : String) {body : Container} (hbody : body.Obeys .finite)
    (kind : ContainerKind) :
    Yields (fun e => Succeeds (({ } : Codec).encodeEntity e)) Error.NotOfWriting
      (client.createContainer service parent body kind).result := by
  obtain ⟨members, hmembers⟩ := Codec.encodeRecord_succeeds hcomplete hbody
  unfold createContainer
  split
  · exact nofun
  · rw [hmembers]
    exact exchange_yields _ _ _ (readCreated_yields hcomplete _)

theorem createDataset_yields {client : Client} (hcomplete : client.codec.types.Complete)
    (service : Service) (parent : String) {body : Dataset} (hbody : body.Obeys .finite) :
    Yields (fun e => Succeeds (({ } : Codec).encodeEntity e)) Error.NotOfWriting
      (client.createDataset service parent body).result := by
  obtain ⟨members, hmembers⟩ := Codec.encodeDataset_succeeds hcomplete hbody
  unfold createDataset
  split
  · exact nofun
  · split
    · next fault hfault =>
        -- The body has a written form, so it was refused for what it holds.
        rw [Dataset.createRequest, hmembers, ok_bind, bind_eq_error_iff] at hfault
        rcases hfault with hforbidden | ⟨_, -, hnone⟩
        · exact Error.notOfWriting_of_usage (Dataset.kind_of_checkCreatable_error hforbidden)
        · cases hnone
    · exact exchange_yields _ _ _ (readCreated_yields hcomplete _)

end Client

/-! ## Commands -/

namespace CommandLine

/-- The command makes an entry. -/
def Command.Creates : Command → Prop
  | .createContainer .. => True
  | .createDataset .. => True
  | _ => False

theorem kind_of_fieldsOfAssignments_error {arguments : List String} {e : Error}
    (h : fieldsOfAssignments arguments = .error e) : e.kind = .usage := by
  obtain ⟨text, -, htext⟩ := exists_mem_of_mapM_eq_error h
  exact kind_of_splitAssignment_error (map_eq_error_iff.mp htext)

theorem kind_of_describedContainer_error {name : String} {metadata fields : List String} {e : Error}
    (h : describedContainer name metadata fields = .error e) : e.kind = .usage := by
  rcases bind_eq_error_iff.mp h with hmetadata | ⟨m, -, hrest⟩
  · exact kind_of_metadataOfAssignments_error hmetadata
  · rcases bind_eq_error_iff.mp hrest with hfields | ⟨extras, -, hnone⟩
    · exact kind_of_fieldsOfAssignments_error hfields
    · cases hnone

theorem kind_of_describedDataset_error {arguments : DatasetArguments} {e : Error}
    (h : describedDataset arguments = .error e) : e.kind = .usage := by
  rcases bind_eq_error_iff.mp h with hmetadata | ⟨m, -, hversion⟩
  · exact kind_of_metadataOfAssignments_error hmetadata
  · rcases bind_eq_error_iff.mp hversion with hmetadata | ⟨v, -, hrest⟩
    · exact kind_of_metadataOfAssignments_error hmetadata
    · rcases bind_eq_error_iff.mp hrest with hlocations | ⟨locations, -, hnone⟩
      · obtain ⟨text, -, htext⟩ := exists_mem_of_mapM_eq_error hlocations
        exact kind_of_splitAssignment_error (map_eq_error_iff.mp htext)
      · cases hnone

theorem connect_yields (surroundings : Surroundings) (invocation : Invocation) :
    Yields (fun client => client.codec.types.Complete) Error.NotOfWriting
      (connect surroundings invocation) := by
  refine .of_forall (fun client hclient => ?_) fun e he => ?_
  · obtain ⟨config, -, rfl⟩ := map_eq_ok_iff.mp hclient
    exact TypeTable.complete_standard
  · exact Error.notOfWriting_of_usage (Config.kind_of_resolve_error (map_eq_error_iff.mp he))

theorem entityDocument_yields {e : Entity} (h : Succeeds (({ } : Codec).encodeEntity e)) :
    Yields (fun _ => True) Error.NotOfWriting (entityDocument e) := by
  obtain ⟨document, hdocument⟩ := h
  rw [entityDocument, hdocument]
  trivial

theorem answer_yields (surroundings : Surroundings) {invocation : Invocation}
    (h : invocation.command.Creates) :
    Yields (fun _ => True) Error.NotOfWriting (answer surroundings invocation) := by
  obtain ⟨url, experiment, mode, command⟩ := invocation
  cases command with
  | createContainer parent name kind metadata fields =>
      have hbody : Yields (Record.Obeys .finite) Error.NotOfWriting
          (describedContainer name metadata fields) :=
        .of_forall (fun _ => obeys_describedContainer) fun _ he =>
          Error.notOfWriting_of_usage (kind_of_describedContainer_error he)
      refine hbody.bind fun body hfinite => ?_
      refine (connect_yields surroundings _).bind fun client hcomplete => ?_
      have hcreated :=
        Client.createContainer_yields hcomplete surroundings.service parent hfinite kind
      exact hcreated.bind fun _ => entityDocument_yields
  | createDataset parent arguments =>
      have hbody : Yields (Dataset.Obeys .finite) Error.NotOfWriting (describedDataset arguments) :=
        .of_forall (fun _ => obeys_describedDataset) fun _ he =>
          Error.notOfWriting_of_usage (kind_of_describedDataset_error he)
      refine hbody.bind fun body hfinite => ?_
      refine (connect_yields surroundings _).bind fun client hcomplete => ?_
      have hcreated := Client.createDataset_yields hcomplete surroundings.service parent hfinite
      exact hcreated.bind fun _ => entityDocument_yields
  | search target options => cases h
  | lookup path view => cases h
  | remove path removal => cases h
  | unpack file defaultKind => cases h

theorem exit_ne_of_answer {surroundings : Surroundings} {arguments : List String}
    {invocation : Invocation} (harguments : Invocation.ofArguments arguments = .ok invocation)
    (h : Yields (fun _ => True) Error.NotOfWriting (answer surroundings invocation)) :
    (run surroundings arguments).exit ≠ ErrorKind.unsupportedType.exitCode := by
  have hrun : run surroundings arguments = (perform surroundings invocation).outcome := by
    rw [run, harguments]
  have hsettles := perform_settles surroundings invocation
  rw [hrun]
  cases hanswer : answer surroundings invocation with
  | ok documents =>
      rw [hanswer] at hsettles
      rw [hsettles.prints.exit]
      exact (ErrorKind.exitCode_ne_zero _).symm
  | error e =>
      rw [hanswer] at hsettles
      rw [hsettles.fails.exit]
      exact fun heq => h.fault hanswer (ErrorKind.exitCode_injective heq)

/-- Metadata is refused, as a fault of usage, exactly if one of its assignments has no key.
Otherwise each key stands where it is assigned first and has the value that it is assigned last,
which is a whole number if the text spells one of 64 bits, else a finite double if the text spells
one, else the text.  This metadata can be written, as can all that is made of it, and a command that
makes an entry never fails for want of a written form. -/
theorem metadataOfAssignments_last_wins (assignments : List String) :
    ((∃ e, metadataOfAssignments assignments = .error e) ↔ ∃ text ∈ assignments, Keyless text) ∧
      (∀ e, metadataOfAssignments assignments = .error e → e.kind = .usage) ∧
      (∀ m, metadataOfAssignments assignments = .ok m →
        (∃ entries, List.Forall₂ AssignsEntry assignments entries ∧
          m.keys = (Entries.keys entries).eraseDups ∧
          ∀ key, m.get? key =
            ((entries.filter fun entry => entry.1 = key).getLast?).map Prod.snd) ∧
        ∃ written, ({ } : Codec).encodeMetadata m = .ok written) ∧
      (∀ name fields body, describedContainer name assignments fields = .ok body →
        ∃ members, ({ } : Codec).encodeRecord body = .ok members) ∧
      (∀ given body, describedDataset given = .ok body →
        ∃ members, ({ } : Codec).encodeDataset body = .ok members) ∧
      ∀ surroundings arguments invocation,
        Invocation.ofArguments arguments = .ok invocation → invocation.command.Creates →
        (run surroundings arguments).exit ≠ ErrorKind.unsupportedType.exitCode := by
  refine ⟨metadataOfAssignments_fails_iff, fun e => kind_of_metadataOfAssignments_error,
    fun m hm => ⟨?_, ?_⟩, fun name fields body hbody => ?_, fun given body hbody => ?_,
    fun surroundings arguments invocation harguments hcreates => ?_⟩
  · obtain ⟨entries, hentries, rfl⟩ := exists_entries_of_metadataOfAssignments hm
    exact ⟨entries, hentries, OrderedMap.keys_ofList entries, OrderedMap.get?_ofList entries⟩
  · exact Codec.encodeMetadata_succeeds TypeTable.complete_standard
      (isFinite_of_metadataOfAssignments hm)
  · exact Codec.encodeRecord_succeeds TypeTable.complete_standard (obeys_describedContainer hbody)
  · exact Codec.encodeDataset_succeeds TypeTable.complete_standard (obeys_describedDataset hbody)
  · exact exit_ne_of_answer harguments (answer_yields surroundings hcreates)

example :
    ((metadataOfAssignments ["b=1", " a = x=y", "b=-1e400", "c=+.5e1"]).map (·.entries)).toOption =
      some [("b", .text "-1e400"), ("a", .text " x=y"), ("c", .decimal (Binary64.ofInt 5))] := by
  decide +kernel

end CommandLine

end DataCatalog
