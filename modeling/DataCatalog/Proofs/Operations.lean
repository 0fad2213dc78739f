import DataCatalog.Client.Basic
import Mathlib

/-!
# Operations and replies

An operation rejects its input whatever the service is, or it sends one request, which is the same
for every service, and reads the document of the reply in one way.  Whatever a service brings about
is therefore seen from the outcome of this request.  A reply from status 400 on always makes an
operation fail, with an error of the kind that belongs to the status.  Below 400 the status does not
count, so that a redirection without an address to go to is taken for a success.
-/

namespace DataCatalog

/-- An operation of the client with what it is about. -/
inductive Operation where
  | search (target : String) (options : SearchOptions)
  | lookup (path : String) (view : View)
  | createContainer (parent : String) (body : Container) (kind : ContainerKind)
  | createDataset (parent : String) (body : Dataset)
  | deleteContainer (path : String) (kind : ContainerKind)
  | deleteDataset (path : String)

namespace Operation

/-- The path of the catalog that the caller names. -/
def target : Operation → String
  | search target _ => target
  | lookup path _ => path
  | createContainer parent _ _ => parent
  | createDataset parent _ => parent
  | deleteContainer path _ => path
  | deleteDataset path => path

/-- What the operation brings if it succeeds. -/
abbrev Answer : Operation → Type
  | search _ _ => List Entity
  | lookup _ _ => Entity
  | createContainer _ _ _ => Entity
  | createDataset _ _ => Entity
  | deleteContainer _ _ => Unit
  | deleteDataset _ => Unit

end Operation

namespace Reply

theorem kind_refusal (reply : Reply) : reply.refusal.kind = errorKind reply.status := rfl

theorem content_of_success (body : Body) : (Reply.mk 200 body).content = body := rfl

end Reply

namespace Outcome

theorem document_of_le {reply : Reply} (h : 400 ≤ reply.status) :
    (Outcome.reply reply).document = .error reply.refusal := by
  simp [document, Reply.isRefusal, h]

theorem document_of_lt {reply : Reply} (h : reply.status < 400) :
    (Outcome.reply reply).document = reply.document := by
  simp [document, Reply.isRefusal, Nat.not_le.mpr h]

/-- Only the content of a reply counts for its document. -/
theorem document_success (reply : Reply) :
    (Outcome.reply ⟨200, reply.content⟩).document = reply.document := by
  rw [document_of_lt (by simp), Reply.document, Reply.document, Reply.content_of_success]

end Outcome

namespace Client

variable {α : Type}

theorem exchange_result_of_error {service : Service} {path : String} {request : Request}
    {result : Json → Except Error α} {e : Error} (h : (service request).document = .error e) :
    (exchange service path request result).result = .error (e.atPath path) := by
  simp [exchange, h]

theorem exchange_result_eq_ok_iff {service : Service} {path : String} {request : Request}
    {result : Json → Except Error α} {a : α} :
    (exchange service path request result).result = .ok a ↔
      ∃ value, (service request).document = .ok value ∧ result value = .ok a := by
  simp only [exchange]
  cases (service request).document <;> simp

theorem exchange_result_congr {service other : Service} {path : String} {request : Request}
    {result : Json → Except Error α}
    (h : (service request).document = (other request).document) :
    (exchange service path request result).result =
      (exchange other path request result).result := by
  simp [exchange, h]

def perform (client : Client) (service : Service) :
    (operation : Operation) → Exchange operation.Answer
  | .search target options => client.search service target options
  | .lookup path view => client.lookup service path view
  | .createContainer parent body kind => client.createContainer service parent body kind
  | .createDataset parent body => client.createDataset service parent body
  | .deleteContainer path kind => client.deleteContainer service path kind
  | .deleteDataset path => client.deleteDataset service path

/-- An operation rejects its input or exchanges one request; neither depends on the service. -/
theorem perform_cases (client : Client) (operation : Operation) :
    (∃ e, ∀ service, client.perform service operation = .rejected e) ∨
      ∃ request result, ∀ service, client.perform service operation =
        exchange service operation.target request result := by
  cases operation with
  | search target options => exact .inr ⟨_, _, fun _ => rfl⟩
  | lookup path view => exact .inr ⟨_, _, fun _ => rfl⟩
  | createContainer parent body kind =>
      simp only [perform, createContainer, Operation.target]
      cases body.get? .name with
      | none => exact .inl ⟨_, fun _ => rfl⟩
      | some name =>
          cases client.codec.encodeRecord body with
          | error e => exact .inl ⟨e, fun _ => rfl⟩
          | ok members => exact .inr ⟨_, _, fun _ => rfl⟩
  | createDataset parent body =>
      simp only [perform, createDataset, Operation.target]
      cases body.get? .name with
      | none => exact .inl ⟨_, fun _ => rfl⟩
      | some name =>
          cases body.createRequest client.codec with
          | error e => exact .inl ⟨e, fun _ => rfl⟩
          | ok request => exact .inr ⟨_, _, fun _ => rfl⟩
  | deleteContainer path kind => exact .inr ⟨_, _, fun _ => rfl⟩
  | deleteDataset path => exact .inr ⟨_, _, fun _ => rfl⟩

theorem perform_of_mem_log {client : Client} {service : Service} {operation : Operation}
    {request : Request} {outcome : Outcome}
    (h : (request, outcome) ∈ (client.perform service operation).log) :
    outcome = service request ∧ ∃ result, ∀ service, client.perform service operation =
      exchange service operation.target request result := by
  rcases client.perform_cases operation with ⟨e, hrejected⟩ | ⟨sent, result, hsent⟩
  · rw [hrejected service] at h
    cases h
  · rw [hsent service] at h
    cases List.mem_singleton.mp h
    exact ⟨rfl, result, hsent⟩

/-- From status 400 on a reply is an error of the kind of its status; below, the content of the
reply has the effect that it has in a reply with status 200. -/
theorem result_of_reply {client : Client} {service : Service} {operation : Operation}
    {request : Request} {reply : Reply}
    (h : (request, .reply reply) ∈ (client.perform service operation).log) :
    (400 ≤ reply.status → ∃ e, (client.perform service operation).result = .error e ∧
        e.kind = Reply.errorKind reply.status ∧ e.path = some operation.target) ∧
      (reply.status < 400 → (client.perform service operation).result =
        (client.perform (fun _ => .reply ⟨200, reply.content⟩) operation).result) := by
  obtain ⟨hreply, result, hsent⟩ := perform_of_mem_log h
  rw [hsent, hsent]
  constructor
  · intro hrefused
    have hdocument : (service request).document = .error reply.refusal := by
      rw [← hreply, Outcome.document_of_le hrefused]
    exact ⟨reply.refusal.atPath operation.target, exchange_result_of_error hdocument,
      reply.kind_refusal, rfl⟩
  · intro hsuccess
    apply exchange_result_congr
    rw [← hreply, Outcome.document_of_lt hsuccess, Outcome.document_success]

/-- A folder that cannot be made because there is one, in a reply that cannot be read. -/
theorem result_of_reply_conflict :
    let client : Client := ⟨⟨⟨"http", "", "localhost", some 8080, ["r"], none, none⟩, 30000⟩, {}⟩
    let reply : Reply := ⟨409, .broken "response too big for into_string"⟩
    let operation : Operation :=
      .createContainer "/EXO" (Record.empty.set .name "muons") .folder
    let exchange := client.perform (fun _ => .reply reply) operation
    ∃ request, (request, .reply reply) ∈ exchange.log ∧
      ∃ e, exchange.result = .error e ∧ e.kind = .alreadyExists ∧ e.path = some "/EXO" := by
  intro client reply operation exchange
  have hsent : (_, .reply reply) ∈ exchange.log := List.mem_singleton_self _
  exact ⟨_, hsent, (result_of_reply hsent).1 (by decide)⟩

/-- Not every reply outside class two is an error: the answer 302 to a deletion, without an address
to go to, makes the deletion succeed. -/
theorem not_error_of_three_hundred_le :
    ¬ ∀ (client : Client) (service : Service) (operation : Operation) (request : Request)
        (reply : Reply), (request, .reply reply) ∈ (client.perform service operation).log →
      300 ≤ reply.status → reply.status ≤ 599 →
      ∃ e, (client.perform service operation).result = .error e ∧
        e.kind = Reply.errorKind reply.status := by
  intro hall
  let client : Client := ⟨⟨⟨"http", "", "localhost", some 8080, ["r"], none, none⟩, 30000⟩, {}⟩
  let reply : Reply := ⟨302, .text ""⟩
  have hsent : (_, .reply reply) ∈
      (client.perform (fun _ => .reply reply) (.deleteContainer "/a" .folder)).log :=
    List.mem_singleton_self _
  obtain ⟨e, herror, -⟩ := hall _ _ _ _ _ hsent (by decide) (by decide)
  have hdeleted :
      (client.perform (fun _ => .reply reply) (.deleteContainer "/a" .folder)).result = .ok () :=
    rfl
  rw [hdeleted] at herror
  cases herror

end Client

end DataCatalog
