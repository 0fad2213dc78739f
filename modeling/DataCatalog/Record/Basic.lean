import DataCatalog.Json.Basic
import DataCatalog.Record.Field

/-!
# Records

A record of a shape has a value or nothing in each of its named fields, and extra fields under any
other keys, in the order in which their keys first got a value.  Falsy values are never stored, so
a record never says the same thing in two ways.  Main statements: what an edit does to each field.
-/

namespace DataCatalog

/-- The fields of a record that have no name of their own. -/
structure Extras (s : Shape) where
  entries : List (String × Json)
  distinct : (Entries.keys entries).Nodup
  allowed : ∀ key ∈ Entries.keys entries, key ∉ s.reserved
  truthy : ∀ entry ∈ entries, entry.2.truthy = true

namespace Extras

variable {s : Shape}

theorem ext_entries {a b : Extras s} (h : a.entries = b.entries) : a = b := by
  cases a
  cases b
  simp_all

def empty : Extras s where
  entries := []
  distinct := List.nodup_nil
  allowed := by simp
  truthy := by simp

theorem truthy_of_mem_put {key : String} {value : Json} {entries : List (String × Json)}
    (hvalue : value.truthy = true) (h : ∀ entry ∈ entries, entry.2.truthy = true) :
    ∀ entry ∈ Entries.put key value entries, entry.2.truthy = true := by
  induction entries with
  | nil => simpa [Entries.put] using hvalue
  | cons head rest ih =>
    obtain ⟨k, v⟩ := head
    intro entry hmem
    simp only [Entries.put] at hmem
    split at hmem
    · rcases List.mem_cons.1 hmem with rfl | hrest
      · exact hvalue
      · exact h entry (List.mem_cons_of_mem _ hrest)
    · rcases List.mem_cons.1 hmem with rfl | hrest
      · exact h _ List.mem_cons_self
      · exact ih (fun e he => h e (List.mem_cons_of_mem _ he)) entry hrest

/-- Sets an extra field.  Reserved keys and falsy values are ignored. -/
def put (extras : Extras s) (key : String) (value : Json) : Extras s :=
  if h : key ∉ s.reserved ∧ value.truthy = true then
    { entries := Entries.put key value extras.entries
      distinct := Entries.nodup_keys_put extras.distinct
      allowed := by
        intro k hk
        rcases Entries.mem_keys_put.1 hk with rfl | hk
        · exact h.1
        · exact extras.allowed k hk
      truthy := truthy_of_mem_put h.2 extras.truthy }
  else extras

def toJson (extras : Extras s) : Json :=
  .object extras.entries

end Extras

structure Record (s : Shape) where
  named : (f : Field) → Option f.Kept
  absent : ∀ f, f ∉ s.fields → named f = none
  extras : Extras s

namespace Record

variable {s : Shape}

def empty : Record s where
  named _ := none
  absent _ _ := rfl
  extras := .empty

instance : Inhabited (Record s) :=
  ⟨empty⟩

def get? (r : Record s) (f : Field) : Option f.Value :=
  (r.named f).map Subtype.val

/-- Sets a named field; a falsy value empties it. -/
def set (r : Record s) (f : Field) (value : f.Value) (has : f ∈ s.fields := by decide) :
    Record s where
  named g := if h : f = g then h ▸ f.keep value else r.named g
  absent g hg := by
    have hne : f ≠ g := fun h => hg (h ▸ has)
    simp only [dif_neg hne, r.absent g hg]
  extras := r.extras

/-- Sets an extra field.  Reserved keys and falsy values are ignored. -/
def withExtra (r : Record s) (key : String) (value : Json) : Record s :=
  { r with extras := r.extras.put key value }

@[simp] theorem named_set_self (r : Record s) (f : Field) (value : f.Value)
    (has : f ∈ s.fields) : (r.set f value has).named f = f.keep value := by
  simp [set]

theorem named_set_of_ne (r : Record s) {f g : Field} (h : f ≠ g) (value : f.Value)
    (has : f ∈ s.fields) : (r.set f value has).named g = r.named g := by
  simp [set, h]

@[simp] theorem extras_set (r : Record s) (f : Field) (value : f.Value) (has : f ∈ s.fields) :
    (r.set f value has).extras = r.extras := rfl

@[simp] theorem named_withExtra (r : Record s) (key : String) (value : Json) (f : Field) :
    (r.withExtra key value).named f = r.named f := rfl

/-- Two records are equal if their named fields and their extra fields are. -/
theorem ext_fields {r q : Record s} (hnamed : ∀ f ∈ s.fields, r.named f = q.named f)
    (hextras : r.extras = q.extras) : r = q := by
  have h : r.named = q.named := by
    funext f
    by_cases hf : f ∈ s.fields
    · exact hnamed f hf
    · rw [r.absent f hf, q.absent f hf]
  cases r
  cases q
  simp_all

def sameField (r q : Record s) (f : Field) : Bool :=
  match r.named f, q.named f with
  | some a, some b => f.type.same a.val b.val
  | none, none => true
  | _, _ => false

/-- Equality of records, the order of members inside extra fields and of the extra fields aside. -/
def same (r q : Record s) : Bool :=
  s.fields.all (r.sameField q) && r.extras.toJson.same q.extras.toJson

end Record

end DataCatalog
