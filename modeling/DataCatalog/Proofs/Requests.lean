import DataCatalog.Proofs.Operations
import DataCatalog.Proofs.Rereading

/-!
# Input is checked first, and one request is sent

An operation is three steps: it prepares a request, which is where its input may be rejected, it
exchanges the request, and it reads the document of the reply.  Only creating an entry can fail in
the first step: for want of a name, because metadata has no written form, or because a dataset has
fields that may not be set.  Whatever goes wrong in the second step is laid to the path that the
caller named.
-/

namespace DataCatalog

/-! ## Rejected input -/

/-- The metadata, if the value is one. -/
def FieldType.metadata? : (type : FieldType) → type.Value → Option Metadata
  | .metadata, (m : Metadata) => some m
  | .integer, _ => none
  | .text, _ => none

theorem FieldType.metadata?_eq_none {type : FieldType} (h : type ≠ .metadata)
    (value : type.Value) : type.metadata? value = none := by
  cases type with
  | metadata => exact absurd rfl h
  | integer => rfl
  | text => rfl

namespace Record

variable {s : Shape}

/-- The metadata in named fields of a record, in the order of the fields. -/
def metadataOf (r : Record s) (fields : List Field) : List Metadata :=
  fields.filterMap fun f => (r.get? f).bind f.type.metadata?

theorem metadataOf_filter (r : Record s) (fields : List Field) :
    r.metadataOf (fields.filter (·.type = .metadata)) = r.metadataOf fields := by
  rw [metadataOf, metadataOf, List.filterMap_filter]
  apply List.filterMap_congr
  intro f _
  split
  · rfl
  · next hother =>
      have htype : f.type ≠ .metadata := by simpa using hother
      have hnone := FieldType.metadata?_eq_none htype
      cases r.get? f <;> simp [hnone]

end Record

namespace Codec

variable {c : Codec} {s : Shape}

/-- Metadata is the only kind of value that may have no written form. -/
theorem encodeValue_cases (c : Codec) {type : FieldType} (value : type.Value) :
    (type.metadata? value = none ∧ ∃ written, c.encodeValue type value = .ok written) ∨
      ∃ m, type.metadata? value = some m ∧ c.encodeValue type value = c.encodeMetadata m := by
  cases type with
  | integer => exact .inl ⟨rfl, _, rfl⟩
  | text => exact .inl ⟨rfl, _, rfl⟩
  | metadata => exact .inr ⟨value, rfl, rfl⟩

/-- Named fields cannot be written exactly if their metadata cannot, with the same error. -/
theorem encodeNamed_eq_error_iff {r : Record s} {fields : List Field} {e : Error} :
    c.encodeNamed r fields = .error e ↔
      (r.metadataOf fields).mapM c.encodeMetadata = .error e := by
  induction fields with
  | nil => simp [encodeNamed, Record.metadataOf, pure, Except.pure]
  | cons f rest ih =>
      rw [encodeNamed]
      cases hget : r.get? f with
      | none =>
          have hrest : r.metadataOf (f :: rest) = r.metadataOf rest := by
            simp [Record.metadataOf, hget]
          rw [hrest, ← ih]
      | some value =>
          rcases c.encodeValue_cases value with ⟨hnone, written, hwritten⟩ | ⟨m, hsome, hsame⟩
          · have hrest : r.metadataOf (f :: rest) = r.metadataOf rest := by
              simp [Record.metadataOf, hget, hnone]
            rw [hrest, ← ih]
            simp [hwritten, bind_eq_error_iff]
          · have hcons : r.metadataOf (f :: rest) = m :: r.metadataOf rest := by
              simp [Record.metadataOf, hget, hsome]
            rw [hcons, List.mapM_cons]
            simp [hsame, bind_eq_error_iff, ih, pure, Except.pure]

theorem encodeRecord_eq_error_iff {r : Record s} {e : Error} :
    c.encodeRecord r = .error e ↔ (r.metadataOf s.fields).mapM c.encodeMetadata = .error e := by
  rw [encodeRecord, map_eq_error_iff, encodeNamed_eq_error_iff]

/-- A container cannot be written exactly if its metadata cannot. -/
theorem encodeContainer_eq_error_iff {body : Container} {e : Error} :
    c.encodeRecord body = .error e ↔
      ∃ m, body.get? .metadata = some m ∧ c.encodeMetadata m = .error e := by
  have hfield : Shape.container.fields.filter (·.type = .metadata) = [.metadata] := by decide
  rw [encodeRecord_eq_error_iff, ← Record.metadataOf_filter, hfield, Record.metadataOf,
    List.filterMap_cons, List.filterMap_nil]
  cases hget : body.get? .metadata with
  | none => simp [pure, Except.pure]
  | some m =>
      have hsingle (m : Metadata) :
          [m].mapM c.encodeMetadata = .error e ↔ c.encodeMetadata m = .error e := by
        simp [bind_eq_error_iff, pure, Except.pure]
      simp only [Option.some.injEq, exists_eq_left']
      exact hsingle m

/-- A dataset that may be created is written with keys that a request may carry. -/
theorem keys_of_checkCreatable {members : List (String × Json)}
    (h : Dataset.checkCreatable members = .ok ()) :
    ∀ key ∈ Entries.keys members, key ∈ Dataset.creatable := by
  unfold Dataset.checkCreatable at h
  split at h
  · next hnone =>
      intro key hkey
      simpa using List.filter_eq_nil_iff.mp hnone key hkey
  · cases h

theorem key_mem_of_encodeNamed {r : Record s} {fields : List Field}
    {members : List (String × Json)} (h : c.encodeNamed r fields = .ok members) {f : Field}
    (hf : f ∈ fields) {value : f.Value} (hget : r.get? f = some value) :
    f.key ∈ Entries.keys members := by
  obtain ⟨written, -, hmem⟩ := exists_member_of_get? h hf hget
  exact Entries.mem_keys_of_mem hmem

end Codec

/-- The body of a request to create a named dataset is an object that has the name and no member
that such a request may not carry. -/
theorem Dataset.members_of_createRequest {d : Dataset} {c : Codec} {document : Json}
    (h : d.createRequest c = .ok document) {name : Field.name.Value}
    (hname : d.get? .name = some name) :
    ∃ members, document = .object members ∧ (∀ key ∈ Entries.keys members, key ∈ creatable) ∧
      Field.name.key ∈ Entries.keys members := by
  obtain ⟨members, hmembers, hcreatable⟩ := bind_eq_ok_iff.mp h
  obtain ⟨_, hchecked, hdocument⟩ := bind_eq_ok_iff.mp hcreatable
  obtain ⟨named, hnamed, locations, _, rfl⟩ := Codec.encodeDataset_eq_ok_iff.mp hmembers
  have hkey : Field.name.key ∈ Entries.keys named :=
    Codec.key_mem_of_encodeNamed hnamed (by decide) hname
  refine ⟨_, (Except.ok.inj hdocument).symm, Codec.keys_of_checkCreatable hchecked, ?_⟩
  simp only [Entries.keys_append, List.mem_append]
  exact .inl (.inl hkey)

/-! ## The three steps of an operation -/

namespace Operation

/-- The endpoint to which the request goes. -/
def endpoint : Operation → String
  | search _ _ => "search"
  | lookup _ _ => "path"
  | createContainer _ _ kind => Client.containerEndpoint kind
  | createDataset _ _ => "datasets"
  | deleteContainer _ kind => Client.containerEndpoint kind
  | deleteDataset _ => "datasets"

/-- The target as it is sent: with the suffixes of a view, if there is one. -/
def address : Operation → List Char
  | search target options => options.view.decorate target
  | lookup path view => view.decorate path
  | createContainer parent _ _ => normalizeTarget parent
  | createDataset parent _ => normalizeTarget parent
  | deleteContainer path _ => normalizeTarget path
  | deleteDataset path => normalizeTarget path

def url (base : Url) : Operation → Url
  | search target options => searchUrl base target options
  | operation => endpointUrl base operation.endpoint operation.address

/-- The input is rejected for this reason.  An entry without a name is not looked at any further. -/
def Rejected (c : Codec) : Operation → Error → Prop
  | createContainer parent body _, e =>
    match body.get? .name with
    | none => e = Client.nameRequired parent
    | some _ => ∃ m, body.get? .metadata = some m ∧ c.encodeMetadata m = .error e
  | createDataset parent body, e =>
    match body.get? .name with
    | none => e = Client.nameRequired parent
    | some _ => body.createRequest c = .error e
  | _, _ => False

end Operation

namespace Client

/-- The request of an operation, or the reason why its input is rejected. -/
def prepare (client : Client) (operation : Operation) : Except Error Request :=
  let url := operation.url client.config.baseUrl
  match operation with
  | .search _ _ => .ok { method := .get, url := url }
  | .lookup _ _ => .ok { method := .get, url := url }
  | .createContainer parent body _ =>
    match body.get? .name with
    | none => .error (nameRequired parent)
    | some _ => (client.codec.encodeRecord body).map fun members =>
        { method := .post, url := url, body := some (Json.object members).render }
  | .createDataset parent body =>
    match body.get? .name with
    | none => .error (nameRequired parent)
    | some _ => (body.createRequest client.codec).map fun document =>
        { method := .post, url := url, body := some document.render }
  | .deleteContainer _ _ => .ok { method := .delete, url := url }
  | .deleteDataset _ => .ok { method := .delete, url := url }

/-- What an operation makes of the document of the reply. -/
def readAnswer (client : Client) :
    (operation : Operation) → Json → Except Error operation.Answer
  | .search _ _, value => client.codec.decode value >>= Decoded.toEntities
  | .lookup _ _, value => client.codec.decode value >>= Decoded.toEntity
  | .createContainer _ _ kind, value => client.readCreated kind.entityKind value
  | .createDataset _ _, value => client.readCreated .dataset value
  | .deleteContainer _ _, _ => .ok ()
  | .deleteDataset _, _ => .ok ()

/-- An operation prepares its request, exchanges it, and reads the reply. -/
theorem perform_eq (client : Client) (service : Service) (operation : Operation) :
    client.perform service operation =
      match client.prepare operation with
      | .error e => .rejected e
      | .ok request => exchange service operation.target request (client.readAnswer operation) := by
  cases operation with
  | search target options => rfl
  | lookup path view => rfl
  | createContainer parent body kind =>
      simp only [perform, createContainer, prepare]
      cases body.get? .name with
      | none => rfl
      | some name => cases client.codec.encodeRecord body <;> rfl
  | createDataset parent body =>
      simp only [perform, createDataset, prepare]
      cases body.get? .name with
      | none => rfl
      | some name => cases body.createRequest client.codec <;> rfl
  | deleteContainer path kind => rfl
  | deleteDataset path => rfl

theorem prepare_eq_error_iff {client : Client} {operation : Operation} {e : Error} :
    client.prepare operation = .error e ↔ operation.Rejected client.codec e := by
  cases operation with
  | createContainer parent body kind =>
      simp only [prepare, Operation.Rejected]
      cases body.get? .name with
      | none => simp [eq_comm]
      | some name => simp [map_eq_error_iff, Codec.encodeContainer_eq_error_iff]
  | createDataset parent body =>
      simp only [prepare, Operation.Rejected]
      cases body.get? .name with
      | none => simp [eq_comm]
      | some name => simp [map_eq_error_iff]
  | _ => simp [prepare, Operation.Rejected]

theorem url_of_prepare {client : Client} {operation : Operation} {request : Request}
    (h : client.prepare operation = .ok request) :
    request.url = operation.url client.config.baseUrl := by
  cases operation with
  | createContainer parent body kind =>
      simp only [prepare] at h
      split at h
      · cases h
      · obtain ⟨members, _, rfl⟩ := map_eq_ok_iff.mp h
        rfl
  | createDataset parent body =>
      simp only [prepare] at h
      split at h
      · cases h
      · obtain ⟨document, _, rfl⟩ := map_eq_ok_iff.mp h
        rfl
  | _ =>
      cases h
      rfl

/-- A request to create a dataset has an object for its body, with a name and with no member that
is not allowed. -/
theorem body_of_prepare {client : Client} {parent : String} {body : Dataset} {request : Request}
    (h : client.prepare (.createDataset parent body) = .ok request) :
    ∃ members, request.body = some (Json.object members).render ∧
      (∀ key ∈ Entries.keys members, key ∈ Dataset.creatable) ∧
      Field.name.key ∈ Entries.keys members := by
  simp only [prepare] at h
  cases hname : body.get? .name with
  | none => simp [hname] at h
  | some name =>
      rw [hname] at h
      obtain ⟨document, hdocument, rfl⟩ := map_eq_ok_iff.mp h
      obtain ⟨members, rfl, hallowed, hmember⟩ := Dataset.members_of_createRequest hdocument hname
      exact ⟨members, rfl, hallowed, hmember⟩

theorem prepare_of_mem_log {client : Client} {service : Service} {operation : Operation}
    {request : Request} {outcome : Outcome}
    (h : (request, outcome) ∈ (client.perform service operation).log) :
    client.prepare operation = .ok request ∧ outcome = service request := by
  rw [perform_eq] at h
  cases hprepare : client.prepare operation with
  | error e => simp [hprepare, Exchange.rejected] at h
  | ok sent =>
      rw [hprepare] at h
      cases List.mem_singleton.mp h
      exact ⟨rfl, rfl⟩

end Client

/-! ## Failures of a request -/

/-- The body breaks off, or it holds a text that is neither blank nor a document. -/
def Reply.Unreadable (reply : Reply) : Prop :=
  (∃ fault, reply.content = .broken fault) ∨
    ∃ content fault, reply.content = .text content ∧ Text.trim content.toList ≠ [] ∧
      Json.parse content = .error fault

/-- The request is not answered, or it is refused, or the answer cannot be read. -/
def Outcome.Fails : Outcome → Prop
  | .hungUp => True
  | .unreachable => True
  | .reply r => 400 ≤ r.status ∨ r.Unreadable

theorem Reply.unreadable_iff {reply : Reply} :
    reply.Unreadable ↔ ∃ e, reply.document = .error e := by
  unfold Reply.Unreadable Reply.document
  cases reply.content with
  | broken fault => simp
  | text content =>
      by_cases hblank : Text.trim content.toList = []
      · simp [hblank]
      · cases hparse : Json.parse content <;> simp [hblank, hparse]

theorem Outcome.fails_iff {outcome : Outcome} :
    outcome.Fails ↔ ∃ e, outcome.document = .error e := by
  cases outcome with
  | hungUp => simp [Fails, document]
  | unreachable => simp [Fails, document]
  | reply reply =>
      by_cases hstatus : 400 ≤ reply.status
      · simp [Fails, hstatus, document_of_le hstatus]
      · rw [document_of_lt (by omega), ← Reply.unreadable_iff]
        simp [Fails, hstatus]

namespace Client

/-- No request is sent exactly if the input is rejected, and then the result is this error;
otherwise one request is sent.  A request to create a dataset holds a name and nothing that is not
allowed.  If the request fails, so does the operation, and the error names the path of the caller. -/
theorem perform_validates_first (client : Client) (service : Service) (operation : Operation) :
    let exchange := client.perform service operation
    (exchange.log = [] ↔ ∃ e, operation.Rejected client.codec e) ∧
      (∀ e, operation.Rejected client.codec e → exchange.result = .error e) ∧
      (exchange.log ≠ [] → ∃ request, exchange.log = [(request, service request)]) ∧
      (∀ parent body request outcome, operation = .createDataset parent body →
        (request, outcome) ∈ exchange.log →
        ∃ members, request.body = some (Json.object members).render ∧
          (∀ key ∈ Entries.keys members, key ∈ Dataset.creatable) ∧
          Field.name.key ∈ Entries.keys members) ∧
      ∀ request outcome, (request, outcome) ∈ exchange.log → outcome.Fails →
        ∃ fault e, outcome.document = .error fault ∧ exchange.result = .error e ∧
          e.cause = fault.cause ∧ e.field = fault.field ∧ e.path = some operation.target := by
  intro exchange
  refine ⟨?_, ?_, ?_, ?_, ?_⟩
  · simp only [exchange, ← prepare_eq_error_iff, perform_eq]
    cases client.prepare operation <;> simp [Exchange.rejected, Client.exchange]
  · intro e hrejected
    simp only [exchange, perform_eq, prepare_eq_error_iff.mpr hrejected]
    rfl
  · simp only [exchange, perform_eq]
    cases client.prepare operation <;> simp [Exchange.rejected, Client.exchange]
  · rintro parent body request outcome rfl hsent
    exact body_of_prepare (prepare_of_mem_log hsent).1
  · intro request outcome hsent hfails
    obtain ⟨hrequest, rfl⟩ := prepare_of_mem_log hsent
    obtain ⟨fault, hfault⟩ := Outcome.fails_iff.mp hfails
    refine ⟨fault, fault.atPath operation.target, hfault, ?_, rfl, rfl, rfl⟩
    simp only [exchange, perform_eq, hrequest]
    exact exchange_result_of_error hfault

end Client

end DataCatalog
