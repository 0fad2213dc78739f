import DataCatalog.CommandLine.Run
import DataCatalog.Proofs.Encodable
import DataCatalog.Proofs.OneLine
import DataCatalog.Proofs.Operations

/-!
# A run prints all of its results or none

A run prints results one after the other, up to the first one that cannot be written.  This comes to
the same as collecting all of them before the first is printed.  Every command but a search has a
single result.  A search prints the entries that it has read, and an entry that was read can always
be written.  So a run that fails has printed nothing, and a run that succeeds has printed one line
for each result.
-/

namespace DataCatalog

/-! ## The entries of a document -/

/-- The items of an array; any other document is the only item of its own. -/
def Json.items : Json → List Json
  | .array items => items
  | value => [value]

namespace Decoded

@[simp] theorem toEntity_eq_ok_iff {d : Decoded} {e : Entity} :
    d.toEntity = .ok e ↔ d = .entity e := by
  cases d <;> simp [toEntity]

theorem mapM_toEntity_eq_ok_iff {items : List Decoded} {entities : List Entity} :
    items.mapM toEntity = .ok entities ↔ items = entities.map .entity := by
  simp only [mapM_eq_ok_iff, toEntity_eq_ok_iff]
  rw [← List.forall₂_eq_eq_eq, List.forall₂_map_right_iff]

end Decoded

namespace Codec

variable {c : Codec}

/-- An object is read as an entry or as a metadata entry, never as a list. -/
theorem toEntities_of_decode_object {members : List (String × Json)} {d : Decoded}
    (h : c.decode (.object members) = .ok d) : d.toEntities = d.toEntity.map fun e => [e] := by
  rcases decode_object_cases h with ⟨entry, _, _, rfl⟩ | ⟨kind, edits, _, _, rfl⟩ <;> rfl

theorem readEntities_single {value : Json} {entities : List Entity}
    (h : ∀ d, c.decode value = .ok d → d.toEntities = d.toEntity.map fun e => [e]) :
    (c.decode value >>= Decoded.toEntities) = .ok entities ↔
      List.Forall₂ (fun item e => c.decode item = .ok (.entity e)) [value] entities := by
  constructor
  · intro hentries
    obtain ⟨d, hread, hd⟩ := bind_eq_ok_iff.mp hentries
    rw [h d hread] at hd
    obtain ⟨e, he, rfl⟩ := map_eq_ok_iff.mp hd
    rw [Decoded.toEntity_eq_ok_iff.mp he] at hread
    exact .cons hread .nil
  · intro hitems
    obtain ⟨e, rest, hread, hrest, rfl⟩ := List.forall₂_cons_left_iff.mp hitems
    cases hrest
    rw [hread]
    rfl

/-- The entries of a document are those of its items, in their order. -/
theorem readEntities_eq_ok_iff {value : Json} {entities : List Entity} :
    (c.decode value >>= Decoded.toEntities) = .ok entities ↔
      List.Forall₂ (fun item e => c.decode item = .ok (.entity e)) value.items entities := by
  cases value with
  | array items =>
      rw [decode_array, bind_eq_ok_iff, exists_map_eq_ok_iff]
      simp only [Decoded.toEntities, Decoded.mapM_toEntity_eq_ok_iff, exists_eq_right]
      rw [mapM_eq_ok_iff, List.forall₂_map_right_iff, Json.items]
  | object members => exact readEntities_single fun _ => toEntities_of_decode_object
  | null => exact readEntities_single fun _ h => by cases h; rfl
  | bool value => exact readEntities_single fun _ h => by cases h; rfl
  | number value => exact readEntities_single fun _ h => by cases h; rfl
  | string value => exact readEntities_single fun _ h => by cases h; rfl

theorem encodeEntity_of_decode {c' : Codec} (hcomplete : c.types.Complete)
    (hcomplete' : c'.types.Complete) {value : Json} {e : Entity}
    (h : c.decode value = .ok (.entity e)) : Succeeds (c'.encodeEntity e) := by
  have hfinite : (Decoded.entity e).IsFinite := ((finiteReading hcomplete).decode value).result h
  cases hfinite with
  | entity hfinite => exact encodeEntity_succeeds hcomplete' hfinite

end Codec

namespace CommandLine

/-! ## Collecting the documents first -/

def entityDocument (e : Entity) : Except Error (List Json) :=
  (({ } : Codec).encodeEntity e).map fun document => [document]

/-- All documents that an invocation brings, or the error that it ends with. -/
def answer (surroundings : Surroundings) (invocation : Invocation) : Except Error (List Json) :=
  let service := surroundings.service
  match invocation.command with
  | .search target options => do
    let client ← connect surroundings invocation
    let entities ← (client.search service target options).result
    entities.mapM ({ } : Codec).encodeEntity
  | .lookup path view => do
    let client ← connect surroundings invocation
    entityDocument (← (client.lookup service path view).result)
  | .createContainer parent name kind metadata fields => do
    let body ← describedContainer name metadata fields
    let client ← connect surroundings invocation
    entityDocument (← (client.createContainer service parent body kind).result)
  | .createDataset parent arguments => do
    let body ← describedDataset arguments
    let client ← connect surroundings invocation
    entityDocument (← (client.createDataset service parent body).result)
  | .remove path removal => do
    let client ← connect surroundings invocation
    match removal with
    | .container kind => (client.deleteContainer service path kind).result
    | .dataset => (client.deleteDataset service path).result
    .ok [.object [("deleted", .string path)]]
  | .unpack file defaultKind =>
    (unpackDocument surroundings file defaultKind).map fun document => [document]

/-- All of the documents have been printed, or nothing but the error has come of it. -/
def Progression.Settles (progression : Progression) : Except Error (List Json) → Prop
  | .ok documents => progression.lines = documents.map Json.render ∧ progression.error = none
  | .error e => progression.lines = [] ∧ progression.error = some e

namespace Progression

theorem settles_failed (e : Error) : (failed e).Settles (.error e) :=
  ⟨rfl, rfl⟩

/-- Results that can all be written are all printed. -/
theorem settles_printAll {α : Type} {write : α → Except Error Json} {results : List α}
    (h : ∀ result ∈ results, Succeeds (write result)) :
    (printAll (results.map write)).Settles (results.mapM write) := by
  induction results with
  | nil => exact ⟨rfl, rfl⟩
  | cons result rest ih =>
      obtain ⟨document, hdocument⟩ := h result List.mem_cons_self
      obtain ⟨documents, hdocuments⟩ := Succeeds.mapM fun next hnext =>
        h next (List.mem_cons_of_mem result hnext)
      -- Printing does not stop at this result, so the rest of the lines follows.
      have hrest := ih fun next hnext => h next (List.mem_cons_of_mem result hnext)
      rw [hdocuments] at hrest
      rw [List.map_cons, List.mapM_cons, hdocument, hdocuments]
      exact ⟨congrArg (document.render :: ·) hrest.1, hrest.2⟩

theorem settles_single (result : Except Error Json) :
    (printAll [result]).Settles (result.map fun document => [document]) := by
  cases result <;> exact ⟨rfl, rfl⟩

theorem settles_ofResult {α : Type} {result : Except Error α} {next : α → Progression}
    {documents : α → Except Error (List Json)}
    (h : ∀ a, result = .ok a → (next a).Settles (documents a)) :
    (ofResult result next).Settles (result >>= documents) := by
  cases result with
  | error e => exact settles_failed e
  | ok a => exact h a rfl

theorem settles_received {progression : Progression} {documents : Except Error (List Json)}
    (h : progression.Settles documents) (received : List Request) :
    { progression with received := received }.Settles documents := by
  cases documents <;> exact h

theorem settles_ofExchange {α : Type} {exchange : Exchange α} {print : α → Progression}
    {documents : α → Except Error (List Json)}
    (h : ∀ a, exchange.result = .ok a → (print a).Settles (documents a)) :
    (ofExchange exchange print).Settles (exchange.result >>= documents) :=
  settles_received (settles_ofResult h) exchange.received

end Progression

theorem search_succeeds {surroundings : Surroundings} {invocation : Invocation} {client : Client}
    (hclient : connect surroundings invocation = .ok client) {service : Service} {target : String}
    {options : SearchOptions} {entities : List Entity}
    (h : (client.search service target options).result = .ok entities) :
    ∀ e ∈ entities, Succeeds (({ } : Codec).encodeEntity e) := by
  obtain ⟨config, _, rfl⟩ := map_eq_ok_iff.mp hclient
  obtain ⟨value, _, hread⟩ := Client.exchange_result_eq_ok_iff.mp h
  intro e he
  -- The entry was read from one of the items of the reply, so it holds finite doubles only.
  have hitems := Codec.readEntities_eq_ok_iff.mp hread
  obtain ⟨item, _, hitem⟩ := exists_of_forall₂ hitems.flip he
  exact Codec.encodeEntity_of_decode TypeTable.complete_standard TypeTable.complete_standard hitem

theorem settles_printEntity (e : Entity) : (printEntity e).Settles (entityDocument e) :=
  Progression.settles_single _

/-- A command prints all of its documents, or it fails and prints none. -/
theorem perform_settles (surroundings : Surroundings) (invocation : Invocation) :
    (perform surroundings invocation).Settles (answer surroundings invocation) := by
  obtain ⟨url, experiment, mode, command⟩ := invocation
  cases command with
  | search target options =>
      apply Progression.settles_ofResult
      intro client hclient
      apply Progression.settles_ofExchange
      intro entities hentities
      exact Progression.settles_printAll (search_succeeds hclient hentities)
  | lookup path view =>
      apply Progression.settles_ofResult
      intro client _
      exact Progression.settles_ofExchange fun e _ => settles_printEntity e
  | createContainer parent name kind metadata fields =>
      apply Progression.settles_ofResult
      intro body _
      apply Progression.settles_ofResult
      intro client _
      exact Progression.settles_ofExchange fun e _ => settles_printEntity e
  | createDataset parent arguments =>
      apply Progression.settles_ofResult
      intro body _
      apply Progression.settles_ofResult
      intro client _
      exact Progression.settles_ofExchange fun e _ => settles_printEntity e
  | remove path removal =>
      apply Progression.settles_ofResult
      intro client _
      cases removal with
      | container kind =>
          exact Progression.settles_ofExchange fun _ _ => Progression.settles_single _
      | dataset => exact Progression.settles_ofExchange fun _ _ => Progression.settles_single _
  | unpack file defaultKind => exact Progression.settles_single _

/-! ## One document for each result -/

/-- The documents are the results of the command.  A search has one for each item of the document
that the service sends, in the order of the items; every other command has one. -/
def Results (surroundings : Surroundings) (invocation : Invocation) (documents : List Json) :
    Prop :=
  match invocation.command with
  | .search target options =>
    ∃ client request outcome value,
      connect surroundings invocation = .ok client ∧
      (request, outcome) ∈ (client.search surroundings.service target options).log ∧
      outcome.document = .ok value ∧
      List.Forall₂
        (fun item document => ∃ e, ({ } : Codec).decode item = .ok (.entity e) ∧
          ({ } : Codec).encodeEntity e = .ok document)
        value.items documents
  | _ => ∃ document, documents = [document]

/-- There is one document or an error. -/
def Single (documents : Except Error (List Json)) : Prop :=
  ∀ list, documents = .ok list → ∃ document, list = [document]

theorem single_map (result : Except Error Json) :
    Single (result.map fun document => [document]) := by
  intro list hlist
  obtain ⟨document, _, rfl⟩ := map_eq_ok_iff.mp hlist
  exact ⟨document, rfl⟩

theorem single_bind {α : Type} {result : Except Error α} {next : α → Except Error (List Json)}
    (h : ∀ a, Single (next a)) : Single (result >>= next) := by
  intro list hlist
  obtain ⟨a, _, ha⟩ := bind_eq_ok_iff.mp hlist
  exact h a list ha

theorem results_of_answer {surroundings : Surroundings} {invocation : Invocation}
    {documents : List Json} (h : answer surroundings invocation = .ok documents) :
    Results surroundings invocation documents := by
  obtain ⟨url, experiment, mode, command⟩ := invocation
  cases command with
  | search target options =>
      obtain ⟨client, hclient, hsearch⟩ := bind_eq_ok_iff.mp h
      obtain ⟨entities, hentities, hwritten⟩ := bind_eq_ok_iff.mp hsearch
      obtain ⟨value, hvalue, hread⟩ := Client.exchange_result_eq_ok_iff.mp hentities
      obtain ⟨config, _, rfl⟩ := map_eq_ok_iff.mp hclient
      refine ⟨_, _, _, value, hclient, List.mem_singleton_self _, hvalue, ?_⟩
      exact forall₂_comp (Codec.readEntities_eq_ok_iff.mp hread) (mapM_eq_ok_iff.mp hwritten)
  | lookup path view =>
      have hsingle : Single (answer surroundings ⟨url, experiment, mode, .lookup path view⟩) :=
        single_bind fun _ => single_bind fun _ => single_map _
      exact hsingle documents h
  | createContainer parent name kind metadata fields =>
      have hsingle : Single (answer surroundings
          ⟨url, experiment, mode, .createContainer parent name kind metadata fields⟩) :=
        single_bind fun _ => single_bind fun _ => single_bind fun _ => single_map _
      exact hsingle documents h
  | createDataset parent arguments =>
      have hsingle : Single (answer surroundings
          ⟨url, experiment, mode, .createDataset parent arguments⟩) :=
        single_bind fun _ => single_bind fun _ => single_bind fun _ => single_map _
      exact hsingle documents h
  | remove path removal =>
      have hsingle : Single (answer surroundings ⟨url, experiment, mode, .remove path removal⟩) := by
        apply single_bind
        intro client
        cases removal with
        | container kind => exact single_bind fun _ => single_map (.ok _)
        | dataset => exact single_bind fun _ => single_map (.ok _)
      exact hsingle documents h
  | unpack file defaultKind => exact single_map _ documents h

/-! ## Runs -/

/-- The arguments ask for the help text or for the version. -/
def AsksForText (arguments : List String) : Prop :=
  Invocation.ofArguments arguments = .error .help ∨
    Invocation.ofArguments arguments = .error .version

/-- The run has ended well and has printed the documents, each on a line of its own. -/
structure Outcome.Prints (outcome : Outcome) (documents : List Json) : Prop where
  exit : outcome.exit = 0
  error : outcome.error = none
  printed : outcome.printed = unlines (documents.map Json.render)
  oneLine : ∀ document ∈ documents, '\n' ∉ document.render.toList

/-- The run has printed nothing but one line about the error, an object that names its kind, and
has ended with the exit code of this kind. -/
structure Outcome.Fails (outcome : Outcome) (e : Error) : Prop where
  exit : outcome.exit = e.kind.exitCode
  exit_ne_zero : outcome.exit ≠ 0
  printed : outcome.printed = ""
  error : outcome.error = some (errorDocument e).render
  oneLine : '\n' ∉ (errorDocument e).render.toList
  kind : ∃ members, errorDocument e = .object [("error", .object members)] ∧
    Entries.get? "kind" members = some (.string e.kind.name)

namespace Progression.Settles

variable {progression : Progression}

theorem prints {documents : List Json} (h : progression.Settles (.ok documents)) :
    progression.outcome.Prints documents where
  exit := by simp [outcome, h.2]
  error := by simp [outcome, h.2]
  printed := by simp [outcome, h.1]
  oneLine document _ := document.lineFeed_notMem_render

theorem fails {e : Error} (h : progression.Settles (.error e)) : progression.outcome.Fails e where
  exit := by simp [outcome, h.2]
  exit_ne_zero := by simp [outcome, h.2, ErrorKind.exitCode_ne_zero]
  printed := by simp [outcome, h.1, unlines]
  error := by simp [outcome, h.2]
  oneLine := (errorDocument e).lineFeed_notMem_render
  kind := ⟨_, rfl, rfl⟩

end Progression.Settles

/-- A run with arguments that do not ask for a text prints all results of its command, one line
each, and nothing else, or it prints one line about an error and nothing else. -/
theorem run_all_or_nothing (surroundings : Surroundings) {arguments : List String}
    (h : ¬ AsksForText arguments) :
    (∃ invocation documents, Invocation.ofArguments arguments = .ok invocation ∧
        answer surroundings invocation = .ok documents ∧
        Results surroundings invocation documents ∧
        (run surroundings arguments).Prints documents) ∨
      ∃ e, (∀ invocation, Invocation.ofArguments arguments = .ok invocation →
          answer surroundings invocation = .error e) ∧
        (run surroundings arguments).Fails e := by
  unfold run
  cases harguments : Invocation.ofArguments arguments with
  | error stop =>
      cases stop with
      | help => exact absurd (.inl harguments) h
      | version => exact absurd (.inr harguments) h
      | fault fault =>
          refine .inr ⟨(Cause.invalidArguments fault).error, ?_, ?_⟩
          · intro invocation hinvocation
            cases hinvocation
          · exact (Progression.settles_failed _).fails
  | ok invocation =>
      have hsettles := perform_settles surroundings invocation
      cases hanswer : answer surroundings invocation with
      | error e =>
          rw [hanswer] at hsettles
          refine .inr ⟨e, ?_, hsettles.fails⟩
          intro other hother
          cases hother
          exact hanswer
      | ok documents =>
          rw [hanswer] at hsettles
          exact .inl ⟨invocation, documents, rfl, hanswer, results_of_answer hanswer,
            hsettles.prints⟩

/-- A search that brings two entries, the second of them with a double and a line end in it. -/
theorem run_all_or_nothing_search :
    let reply : Json := .array [
      .object [("_type", .string "folder"), ("name", .string "muons")],
      .object [("_type", .string "group"), ("name", .string "runs\nof 2019"),
        ("metadata", .array [.array [.string "energy", .number (.float (.zero true))]])]]
    let surroundings : Surroundings :=
      { environment := {}, file := fun _ => .error .missing, input := none
        service := fun _ => .reply ⟨200, .text reply.render⟩ }
    let arguments := ["search", "/EXO", "--url", "http://localhost/r"]
    ¬ AsksForText arguments ∧ ∃ documents, documents.length = 2 ∧
      (run surroundings arguments).Prints documents := by
  intro reply surroundings arguments
  let invocation : Invocation := ⟨some "http://localhost/r", none, none, .search "/EXO" {}⟩
  have hparsed : Invocation.ofArguments arguments = .ok invocation := rfl
  have htext : ¬ AsksForText arguments := by
    rintro (hhelp | hversion)
    · cases hparsed.symm.trans hhelp
    · cases hparsed.symm.trans hversion
  have hcount : (answer surroundings invocation).toOption.map List.length = some 2 := by
    decide +kernel
  refine ⟨htext, ?_⟩
  rcases run_all_or_nothing surroundings htext with
    ⟨other, documents, hother, hdocuments, -, hprints⟩ | ⟨e, hfails, -⟩
  · cases hparsed.symm.trans hother
    rw [hdocuments] at hcount
    exact ⟨documents, Option.some_inj.mp hcount, hprints⟩
  · rw [hfails _ hparsed] at hcount
    cases hcount

end CommandLine

end DataCatalog
