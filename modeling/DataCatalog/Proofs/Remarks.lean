import DataCatalog.Proofs.JsonRoundTrip
import DataCatalog.Proofs.Operations

/-!
# What a refusal says

A service may explain a refusal by an object with a message.  The client reads three members of the
object together, the message, a type and a cause, and each of them has to be a text or null.  If they
are, what the error says ends with the message.  If the type or the cause is something else, nothing
of the object is read, and the error says no more than the status.  Other members make no
difference, whatever they are.
-/

namespace DataCatalog

namespace Json

variable {α β : Type}

/-! ## Values that are read and values that are passed over -/

theorem exists_of_map_consChar {x : Except SyntaxError (List Char × List Char)} {c : Char}
    {chars rest : List Char} (h : x.map (consChar c) = .ok (chars, rest)) :
    ∃ more, x = .ok (more, rest) := by
  cases x with
  | error e => cases h
  | ok read =>
      cases h
      exact ⟨read.1, rfl⟩

/-- A text that can be read is passed over as far as it is read. -/
theorem skimString_of_stringBody {high : Option Nat} {s chars rest : List Char}
    (h : stringBody high s = .ok (chars, rest)) : skimString s = .ok ((), rest) := by
  fun_induction stringBody high s generalizing chars with
  | case2 =>
      cases h
      rfl
  | case5 a b c d tail unit hunit _ _ ih =>
      simp [skimString, hunit, ih h]
  | case6 a b c d tail unit hunit _ _ ih =>
      obtain ⟨more, hmore⟩ := exists_of_map_consChar h
      simp [skimString, hunit, ih hmore]
  | case8 c tail _ _ char hchar ih =>
      obtain ⟨more, hmore⟩ := exists_of_map_consChar h
      simp [skimString, hchar, ih hmore]
  | case12 c tail _ _ _ hescape hlone hspace ih =>
      obtain ⟨more, hmore⟩ := exists_of_map_consChar h
      have hslash : c ≠ '\\' := by
        rintro rfl
        cases tail with
        | nil => exact hlone rfl rfl
        | cons d rest => exact hescape d rest rfl rfl
      simp [skimString, hslash, hspace, ih hmore]
  | case14 high a b c d tail unit hunit _ ih =>
      obtain ⟨more, hmore⟩ := exists_of_map_consChar h
      simp [skimString, hunit, ih hmore]
  -- In the other cases the text cannot be read.
  | _ => cases h

theorem skimString_of_readString {s rest : List Char} {text : String}
    (h : readString s = .ok (text, rest)) : skimString s = .ok ((), rest) := by
  unfold readString at h
  cases hbody : stringBody none s with
  | error e => simp [hbody, bind, Except.bind] at h
  | ok read =>
      simp only [hbody, bind, Except.bind, Except.ok.injEq, Prod.mk.injEq] at h
      rw [← h.2]
      exact skimString_of_stringBody hbody

/-- What a value is, as far as null and texts are told apart from other values. -/
inductive Shown where
  | null
  | text (s : String)
  | other
  deriving DecidableEq

def Shown.text? : Shown → Option String
  | .text s => some s
  | _ => none

/-- Reads what a value is.  A text with an unpaired surrogate is none. -/
def shown : Reader Shown := fun s =>
  match skipSpace s with
  | 'n' :: rest => (literal ['u', 'l', 'l'] rest).map (.null, ·)
  | '"' :: rest =>
    match readString rest with
    | .ok (text, rest) => .ok (.text text, rest)
    | .error _ => (skimString rest).map fun (_, rest) => (.other, rest)
  | _ => (skim s).map fun (_, rest) => (.other, rest)

/-- Null and texts are read; another value is passed over, or it is a text that cannot be read. -/
theorem shown_cases {s rest : List Char} {v : Shown} (h : shown s = .ok (v, rest)) :
    (∃ front, skipSpace s = 'n' :: front ∧ literal ['u', 'l', 'l'] front = .ok rest ∧
        v = .null) ∨
      (∃ front text, skipSpace s = '"' :: front ∧ readString front = .ok (text, rest) ∧
        v = .text text) ∨
      (∃ front e, skipSpace s = '"' :: front ∧ readString front = .error e ∧
        skimString front = .ok ((), rest) ∧ v = .other) ∨
      ((∀ front, skipSpace s ≠ 'n' :: front ∧ skipSpace s ≠ '"' :: front) ∧
        skim s = .ok ((), rest) ∧ v = .other) := by
  unfold shown at h
  split at h
  · next front hfront =>
      cases hword : literal ['u', 'l', 'l'] front with
      | error e => simp [hword, Except.map] at h
      | ok tail =>
          simp only [hword, Except.map, Except.ok.injEq, Prod.mk.injEq] at h
          exact .inl ⟨front, hfront, by rw [hword, h.2], h.1.symm⟩
  · next front hfront =>
      cases hread : readString front with
      | ok read =>
          simp only [hread, Except.ok.injEq, Prod.mk.injEq] at h
          exact .inr (.inl ⟨front, read.1, hfront, by rw [hread, ← h.2], h.1.symm⟩)
      | error e =>
          cases hskim : skimString front with
          | error e => simp [hread, hskim, Except.map] at h
          | ok read =>
              simp only [hread, hskim, Except.map, Except.ok.injEq, Prod.mk.injEq] at h
              exact .inr (.inr (.inl ⟨front, e, hfront, hread, by rw [hskim, ← h.2], h.1.symm⟩))
  · next hnull htext =>
      cases hskim : skim s with
      | error e => simp [hskim, Except.map] at h
      | ok read =>
          simp only [hskim, Except.map, Except.ok.injEq, Prod.mk.injEq] at h
          have hfront : ∀ front, skipSpace s ≠ 'n' :: front ∧ skipSpace s ≠ '"' :: front :=
            fun front => ⟨hnull front, htext front⟩
          exact .inr (.inr (.inr ⟨hfront, by rw [← h.2], h.1.symm⟩))

theorem skim_of_shown {s rest : List Char} {v : Shown} (h : shown s = .ok (v, rest)) :
    skim s = .ok ((), rest) := by
  rcases shown_cases h with
    ⟨front, hfront, hword, -⟩ | ⟨front, text, hfront, hread, -⟩ |
    ⟨front, e, hfront, -, hskim, -⟩ | ⟨-, hskim, -⟩
  · simp [skim, skimValue, hfront, hword, Except.map]
  · simp [skim, skimValue, hfront, skimString_of_readString hread]
  · simp [skim, skimValue, hfront, hskim]
  · exact hskim

/-! ## Two readers of one list -/

section Lists

variable {close : Char} {stop other : SyntaxError} {part : Reader α} {part' : Reader β}
  {loop : Nat → Reader (List α)} {loop' : Nat → Reader (List β)} {note : α → Option β}

/-- Where the first reader reads something, the second one reads what is noted of it, or it fails if
nothing is. -/
def Notes (note : α → Option β) (reader : Reader α) (reader' : Reader β) : Prop :=
  ∀ s x rest, reader s = .ok (x, rest) →
    (reader' s).toOption = (note x).map fun y => (y, rest)

theorem Loops.succ_cases (hloop : Loops close stop other part loop) {count : Nat}
    {s tail : List Char} {xs : List α} (h : loop (count + 1) s = .ok (xs, tail)) :
    ∃ x rest, part s = .ok (x, rest) ∧
      ((nextPart close stop other rest = .ok (true, tail) ∧ xs = [x]) ∨
        ∃ more behind, nextPart close stop other rest = .ok (false, behind) ∧
          loop count behind = .ok (more, tail) ∧ xs = x :: more) := by
  rw [hloop.succ] at h
  cases hpart : part s with
  | error e => simp [hpart, bind, Except.bind] at h
  | ok first =>
      refine ⟨first.1, first.2, rfl, ?_⟩
      simp only [hpart, bind, Except.bind] at h
      cases hnext : nextPart close stop other first.2 with
      | error e => simp [hnext] at h
      | ok next =>
          obtain ⟨last, behind⟩ := next
          cases last with
          | true =>
              simp only [hnext, if_true, Except.ok.injEq, Prod.mk.injEq] at h
              exact .inl ⟨by rw [h.2], h.1.symm⟩
          | false =>
              cases hmore : loop count behind with
              | error e => simp [hnext, hmore, Except.map] at h
              | ok more =>
                  simp only [hnext, hmore, Except.map, Bool.false_eq_true, if_false,
                    Except.ok.injEq, Prod.mk.injEq] at h
                  exact .inr ⟨more.1, behind, rfl, by rw [hmore, ← h.2], h.1.symm⟩

theorem toOption_bind {γ : Type} (x : Except SyntaxError γ) (f : γ → Except SyntaxError α) :
    (x >>= f).toOption = x.toOption.bind fun a => (f a).toOption := by
  cases x <;> rfl

theorem toOption_map {γ : Type} (x : Except SyntaxError γ) (f : γ → α) :
    (x.map f).toOption = x.toOption.map f := by
  cases x <;> rfl

theorem Loops.notes (hloop : Loops close stop other part loop)
    (hloop' : Loops close stop other part' loop') (h : Notes note part part') (count : Nat) :
    Notes (fun xs => xs.mapM note) (loop count) (loop' count) := by
  -- Both loops leave the same rest behind each part, so they come to the same end of the list.
  induction count with
  | zero =>
      intro s xs tail hread
      simp [hloop.zero] at hread
  | succ count ih =>
      intro s xs tail hread
      obtain ⟨x, rest, hpart, hbehind⟩ := hloop.succ_cases hread
      rw [hloop'.succ, toOption_bind, h s x rest hpart]
      rcases hbehind with ⟨hlast, rfl⟩ | ⟨more, behind, hnext, hmore, rfl⟩
      · cases hnote : note x <;> simp [hnote, hlast, bind, Except.bind, Except.toOption]
      · have hnoted := ih behind more tail hmore
        cases hnote : note x with
        | none => simp [hnote]
        | some y =>
            cases hmapped : more.mapM note <;>
              simp [hnote, hnext, hmapped, hnoted, bind, Except.bind, toOption_map]

end Lists

section Members

variable {value : Reader α} {value' : String → Reader β} {note : String → α → Option β}

def noteMember (note : String → α → Option β) (member : String × α) : Option (String × β) :=
  (note member.1 member.2).map fun y => (member.1, y)

theorem notes_readMember (h : ∀ key, Notes (note key) value (value' key)) :
    Notes (noteMember note) (readMember readString fun _ => value)
      (readMember readString value') := by
  intro s member rest
  unfold readMember
  split
  · next front =>
      cases hkey : readString front with
      | error e => simp [bind, Except.bind]
      | ok key =>
          simp only [bind, Except.bind]
          split
          · simp
          · next behind _ =>
              cases hvalue : value behind with
              | error e => simp
              | ok read =>
                  intro hread
                  simp only [Except.ok.injEq, Prod.mk.injEq] at hread
                  obtain ⟨rfl, rfl⟩ := hread
                  have hnoted := h key.1 behind read.1 read.2 hvalue
                  cases hvalue' : value' key.1 behind <;> cases hnote : note key.1 read.1 <;>
                    simp_all [noteMember, Except.toOption]
          · simp
  · simp

theorem notes_readObject (h : ∀ key, Notes (note key) value (value' key)) :
    Notes (fun members => members.mapM (noteMember note)) (readObject readString fun _ => value)
      (readObject readString value') := by
  intro s members rest
  unfold readObject
  split
  · simp
  · intro hread
    cases hread
    rfl
  · exact (loops_readMembers readString fun _ => value).notes (loops_readMembers readString value')
      (notes_readMember h) _ _ _ _

end Members

/-- The text is an object, and these are its members in order. -/
def IsObject (text : String) (members : List (String × Shown)) : Prop :=
  ∃ front behind, skipSpace text.toList = '\x7b' :: front ∧
    readObject readString (fun _ => shown) front = .ok (members, behind) ∧ skipSpace behind = []

end Json

/-! ## Remarks -/

namespace Remark

open Json

def optional? : Shown → Option (Option String)
  | .null => some none
  | .text s => some (some s)
  | .other => none

def note (key : String) (v : Shown) : Option (Option (Option String)) :=
  if known.contains key then (optional? v).map some else some none

theorem notes_readOptional : Notes optional? shown readOptional := by
  intro s v rest h
  rcases shown_cases h with
    ⟨front, hfront, hword, rfl⟩ | ⟨front, text, hfront, hread, rfl⟩ |
    ⟨front, e, hfront, hread, -, rfl⟩ | ⟨hfront, -, rfl⟩
  · simp [readOptional, hfront, hword, Except.map, Except.toOption, optional?]
  · simp [readOptional, hfront, hread, Except.map, Except.toOption, optional?]
  · simp [readOptional, hfront, hread, Except.map, Except.toOption, optional?]
  · unfold readOptional
    split
    · next front hnull => exact absurd hnull (hfront front).1
    · next front htext => exact absurd htext (hfront front).2
    · rfl

theorem notes_readContent (key : String) : Notes (note key) shown (readContent key) := by
  intro s v rest h
  unfold readContent note
  split
  · rw [toOption_map, notes_readOptional s v rest h]
    cases optional? v <;> rfl
  · rw [skim_of_shown h]
    rfl

variable {text : String} {members : List (String × Shown)}
  {noted : List (String × Option (Option String))}

theorem parse?_of_isObject (h : IsObject text members) :
    parse? text = (members.mapM (noteMember note)).bind ofMembers? := by
  obtain ⟨front, behind, hfront, hread, hbehind⟩ := h
  have hnoted := notes_readObject notes_readContent front members behind hread
  simp only [parse?, Remark.read, hfront]
  cases hmembers : readObject readString readContent front with
  | error e =>
      cases hmapped : members.mapM (noteMember note) with
      | none => rfl
      | some noted => simp [hmembers, hmapped, Except.toOption] at hnoted
  | ok read =>
      cases hmapped : members.mapM (noteMember note) with
      | none => simp [hmembers, hmapped, Except.toOption] at hnoted
      | some noted =>
          simp only [hmembers, hmapped, Except.toOption, Option.map_some, Option.some.injEq]
            at hnoted
          simp [hnoted, Except.map, hbehind]

theorem mapM_cons_eq_some_iff {member : String × Shown} :
    (member :: members).mapM (noteMember note) = some noted ↔
      ∃ y rest, note member.1 member.2 = some y ∧ members.mapM (noteMember note) = some rest ∧
        noted = (member.1, y) :: rest := by
  rw [List.mapM_cons]
  simp only [noteMember, Option.bind_eq_bind, Option.bind_eq_some_iff, Option.map_eq_some_iff,
    Option.pure_def, Option.some.injEq]
  constructor
  · rintro ⟨_, ⟨y, hy, rfl⟩, rest, hrest, rfl⟩
    exact ⟨y, rest, hy, hrest, rfl⟩
  · rintro ⟨y, rest, hy, hrest, rfl⟩
    exact ⟨_, ⟨y, hy, rfl⟩, rest, hrest, rfl⟩

theorem keys_of_noted (h : members.mapM (noteMember note) = some noted) :
    Entries.keys noted = Entries.keys members := by
  induction members generalizing noted with
  | nil =>
      cases h
      rfl
  | cons member rest ih =>
      obtain ⟨y, more, -, hmore, rfl⟩ := mapM_cons_eq_some_iff.mp h
      rw [Entries.keys_cons, Entries.keys_cons, ih hmore]

theorem get?_of_noted (h : members.mapM (noteMember note) = some noted) (key : String) :
    Entries.get? key noted = (Entries.get? key members).bind (note key) := by
  induction members generalizing noted with
  | nil =>
      cases h
      rfl
  | cons member rest ih =>
      obtain ⟨y, more, hy, hmore, rfl⟩ := mapM_cons_eq_some_iff.mp h
      by_cases hkey : member.1 = key
      · subst hkey
        simp [Entries.get?, hy]
      · simp [Entries.get?, hkey, ih hmore]

theorem exists_noted_iff :
    (∃ noted, members.mapM (noteMember note) = some noted) ↔
      ∀ member ∈ members, (note member.1 member.2).isSome = true := by
  induction members with
  | nil => simp
  | cons member rest ih =>
      rw [List.forall_mem_cons, ← ih]
      simp only [mapM_cons_eq_some_iff, Option.isSome_iff_exists]
      constructor
      · rintro ⟨_, y, more, hy, hmore, rfl⟩
        exact ⟨⟨y, hy⟩, ⟨more, hmore⟩⟩
      · rintro ⟨⟨y, hy⟩, ⟨more, hmore⟩⟩
        exact ⟨_, y, more, hy, hmore, rfl⟩

/-- None of the members that count is anything but a text or null. -/
def Readable (members : List (String × Shown)) : Prop :=
  ∀ key ∈ known, Entries.get? key members ≠ some .other

def textAt (key : String) (members : List (String × Shown)) : Option String :=
  (Entries.get? key members).bind Shown.text?

theorem isSome_note_iff {key : String} {v : Shown} :
    (note key v).isSome = true ↔ (key ∈ known → v ≠ .other) := by
  unfold note
  by_cases hkey : key ∈ known
  · cases v <;> simp [hkey, optional?]
  · simp [hkey]

theorem readable_iff (hdistinct : (Entries.keys members).Nodup) :
    Readable members ↔ ∃ noted, members.mapM (noteMember note) = some noted := by
  simp only [exists_noted_iff, isSome_note_iff, Readable, ne_eq,
    Entries.get?_eq_some_iff hdistinct]
  constructor
  · rintro h ⟨key, v⟩ hmember hkey rfl
    exact h key hkey hmember
  · intro h key hkey hmember
    exact h _ hmember hkey rfl

theorem value_of_noted (h : members.mapM (noteMember note) = some noted) {key : String}
    (hkey : key ∈ known) :
    ((Entries.get? key noted).join).join = textAt key members := by
  rw [get?_of_noted h, textAt]
  cases Entries.get? key members with
  | none => rfl
  | some v => cases v <;> simp [note, hkey, optional?, Shown.text?]

/-- The three members are read together, or nothing is read. -/
theorem parse?_of_readable (h : IsObject text members) (hdistinct : (Entries.keys members).Nodup)
    (hreadable : Readable members) :
    parse? text =
      some ⟨textAt "message" members, textAt "type" members, textAt "cause" members⟩ := by
  obtain ⟨noted, hnoted⟩ := (readable_iff hdistinct).mp hreadable
  have hcounts : known.all (fun key => (Entries.keys noted).count key ≤ 1) = true := by
    rw [keys_of_noted hnoted, List.all_eq_true]
    intro key _
    exact decide_eq_true (List.nodup_iff_count_le_one.mp hdistinct key)
  rw [parse?_of_isObject h, hnoted, Option.bind_some, ofMembers?, if_pos hcounts]
  simp only [value_of_noted hnoted (by decide : "message" ∈ known),
    value_of_noted hnoted (by decide : "type" ∈ known),
    value_of_noted hnoted (by decide : "cause" ∈ known)]

theorem parse?_of_not_readable (h : IsObject text members)
    (hdistinct : (Entries.keys members).Nodup) (hreadable : ¬Readable members) :
    parse? text = none := by
  rw [readable_iff hdistinct, ← Option.isSome_iff_exists, Option.not_isSome_iff_eq_none]
    at hreadable
  rw [parse?_of_isObject h, hreadable, Option.bind_none]

end Remark

/-! ## Refusals -/

theorem Reply.content_of_le {reply : Reply} (h : 400 ≤ reply.status) :
    reply.content = reply.body := by
  unfold Reply.content
  exact if_neg (by omega)

namespace Client

open Json

variable {client : Client} {service : Service} {operation : Operation} {request : Request}
  {status : Nat} {text : String}

/-- What the error of a refusal says is the wording of its remark. -/
theorem exists_error_of_refusal
    (hsent : (request, .reply ⟨status, .text text⟩) ∈ (client.perform service operation).log)
    (hstatus : 400 ≤ status) :
    ∃ e, (client.perform service operation).result = .error e ∧
      e.report.message =
        some (((Remark.parse? text).getD ⟨none, none, none⟩).wording status) := by
  obtain ⟨hreply, result, hperform⟩ := perform_of_mem_log hsent
  let reply : Reply := ⟨status, .text text⟩
  have hdocument : (service request).document = .error reply.refusal := by
    rw [← hreply]
    exact Outcome.document_of_le hstatus
  have hresult : (client.perform service operation).result =
      .error (reply.refusal.atPath operation.target) := by
    rw [hperform]
    exact exchange_result_of_error hdocument
  have hcontent : reply.content = .text text := Reply.content_of_le hstatus
  have hremark : Remark.ofBody? reply.content = Remark.parse? text := by
    rw [hcontent, Remark.ofBody?]
  refine ⟨_, hresult, ?_⟩
  rw [← hremark]
  rfl

/-- If the service explains a refusal by an object with a message, and neither the type nor the
cause in it is anything but a text or null, then the error says the message, behind the type if
there is one.  If one of the two is something else, the error says the status alone. -/
theorem message_of_refusal
    (hsent : (request, .reply ⟨status, .text text⟩) ∈ (client.perform service operation).log)
    (hstatus : 400 ≤ status) {members : List (String × Shown)} (hbody : IsObject text members)
    (hdistinct : (Entries.keys members).Nodup) {message : String}
    (hmessage : Entries.get? "message" members = some (.text message)) :
    ∃ e said, (client.perform service operation).result = .error e ∧
      e.report.message = some said ∧
      (Remark.Readable members →
        said = ((Remark.textAt "type" members).map (· ++ ": ")).getD "" ++ message) ∧
      (¬Remark.Readable members →
        said = "catalog error status " ++ String.ofList (Text.writeInt status)) := by
  obtain ⟨e, hresult, hsaid⟩ := exists_error_of_refusal hsent hstatus
  refine ⟨e, _, hresult, hsaid, fun hreadable => ?_, fun hreadable => ?_⟩
  · have htext : Remark.textAt "message" members = some message := by
      simp [Remark.textAt, hmessage, Shown.text?]
    rw [Remark.parse?_of_readable hbody hdistinct hreadable, htext]
    cases Remark.textAt "type" members <;> simp [Remark.wording]
  · rw [Remark.parse?_of_not_readable hbody hdistinct hreadable]
    rfl

/-- A refusal with a type, a code and a list of details besides the message. -/
theorem message_of_refusal_typed :
    let client : Client := ⟨⟨⟨"http", "", "localhost", some 8080, ["r"], none, none⟩, 30000⟩, {}⟩
    let text :=
      "\x7b\"code\":5,\"message\":\"no such folder\",\"type\":\"NotFound\",\"more\":[1,null]\x7d"
    let exchange :=
      client.perform (fun _ => .reply ⟨404, .text text⟩) (.deleteContainer "/a" .folder)
    ∃ e, exchange.result = .error e ∧ e.report.message = some "NotFound: no such folder" := by
  intro client text exchange
  have hsent : (_, .reply ⟨404, .text text⟩) ∈ exchange.log := List.mem_singleton_self _
  have hbody : IsObject text [("code", .other), ("message", .text "no such folder"),
      ("type", .text "NotFound"), ("more", .other)] :=
    ⟨text.toList.tail, [], by decide +kernel, by decide +kernel, rfl⟩
  obtain ⟨e, said, hresult, hsaid, hreadable, -⟩ :=
    message_of_refusal hsent (by decide) hbody (by decide) rfl
  rw [hreadable (by simp [Remark.Readable, Remark.known, Entries.get?])] at hsaid
  exact ⟨e, hresult, hsaid⟩

/-- A type that is a number keeps the message from the caller. -/
theorem not_forall_message_said :
    ¬∀ (client : Client) (service : Service) (operation : Operation) (request : Request)
        (status : Nat) (text : String) (members : List (String × Shown)) (message : String),
      (request, .reply ⟨status, .text text⟩) ∈ (client.perform service operation).log →
      400 ≤ status → status ≤ 599 → IsObject text members → (Entries.keys members).Nodup →
      Entries.get? "message" members = some (.text message) →
      ∃ e front, (client.perform service operation).result = .error e ∧
        e.report.message = some (front ++ message) := by
  intro hall
  let client : Client := ⟨⟨⟨"http", "", "localhost", some 8080, ["r"], none, none⟩, 30000⟩, {}⟩
  let text := "\x7b\"message\":\"no such folder\",\"type\":5\x7d"
  let operation : Operation := .deleteContainer "/a" .folder
  have hsent : (_, .reply ⟨404, .text text⟩) ∈
      (client.perform (fun _ => .reply ⟨404, .text text⟩) operation).log :=
    List.mem_singleton_self _
  have hbody : IsObject text [("message", .text "no such folder"), ("type", .other)] :=
    ⟨text.toList.tail, [], by decide +kernel, by decide +kernel, rfl⟩
  obtain ⟨e, front, hresult, hsaid⟩ := hall _ _ _ _ _ _ _ _ hsent (by decide) (by decide) hbody
    (by decide) rfl
  obtain ⟨e', hresult', hsaid'⟩ := exists_error_of_refusal hsent (by decide)
  rw [hresult, Except.error.injEq] at hresult'
  subst hresult'
  rw [Remark.parse?_of_not_readable hbody (by decide)
    (by simp [Remark.Readable, Remark.known, Entries.get?]), hsaid, Option.some.injEq] at hsaid'
  have hsuffix : "no such folder".toList <:+ "catalog error status 404".toList :=
    ⟨front.toList, by rw [← String.toList_append, hsaid']; rfl⟩
  exact absurd hsuffix (by decide)

end Client

end DataCatalog
