import DataCatalog.Binary64.Basic
import DataCatalog.OrderedMap

/-!
# JSON documents

The values of JSON.  A number is a whole number between `-2 ^ 63` and `2 ^ 64` or a finite double,
and an object is a list of members in order.  A value is falsy when it is null, false, zero or
empty.  Two values are the same when they differ at most in the order of members and in the sign
of zeros.
-/

namespace DataCatalog

/-- A number of a document: a whole number without fraction and exponent, or a double. -/
inductive Json.Number where
  | integer (value : Int) (lower : -0x8000000000000000 ≤ value)
    (upper : value < 0x10000000000000000)
  | float (value : Binary64.Finite)
  deriving DecidableEq

inductive Json where
  | null
  | bool (value : Bool)
  | number (value : Json.Number)
  | string (value : String)
  | array (items : List Json)
  | object (members : List (String × Json))

namespace Json

instance : Inhabited Json :=
  ⟨.null⟩

namespace Number

def ofInt64 (n : Int64) : Number :=
  .integer n.toInt (Int64.le_toInt n) (by have := Int64.toInt_lt n; omega)

/-- The whole number, if it is one of the signed 64-bit range. -/
def toInt64? : Number → Option Int64
  | .integer n _ _ => if n < 0x8000000000000000 then some (Int64.ofInt n) else none
  | .float _ => none

/-- The number as a double; a whole number is rounded to the nearest one. -/
def toBinary64 : Number → Binary64
  | .integer n _ _ => .ofInt n
  | .float x => .finite x

def isZero : Number → Bool
  | .integer n _ _ => n == 0
  | .float x => x.isZero

/-- Equality of numbers; a whole number never equals a double. -/
def same : Number → Number → Bool
  | .integer m _ _, .integer n _ _ => m == n
  | .float x, .float y => x.same y
  | _, _ => false

end Number

def truthy : Json → Bool
  | .null => false
  | .bool b => b
  | .number n => !n.isZero
  | .string s => s != ""
  | .array items => !items.isEmpty
  | .object members => !members.isEmpty

def ofInt64 (n : Int64) : Json :=
  .number (.ofInt64 n)

mutual

/-- Equality up to the order of members. -/
def same : Json → Json → Bool
  | .null, .null => true
  | .bool a, .bool b => a == b
  | .number m, .number n => m.same n
  | .string s, .string t => s == t
  | .array xs, .array ys => sameItems xs ys
  | .object ms, .object ns => ms.length == ns.length && sameMembers ms ns
  | _, _ => false

def sameItems : List Json → List Json → Bool
  | [], [] => true
  | x :: xs, y :: ys => same x y && sameItems xs ys
  | _, _ => false

/-- Each member of the first list has its equal in the second one. -/
def sameMembers : List (String × Json) → List (String × Json) → Bool
  | [], _ => true
  | (key, x) :: rest, others =>
    (match Entries.get? key others with
      | some y => same x y
      | none => false)
    && sameMembers rest others

end

mutual

/-- How many arrays and objects enclose the innermost value. -/
def depth : Json → Nat
  | .array items => itemsDepth items + 1
  | .object members => membersDepth members + 1
  | _ => 0

def itemsDepth : List Json → Nat
  | [] => 0
  | item :: rest => max item.depth (itemsDepth rest)

def membersDepth : List (String × Json) → Nat
  | [] => 0
  | (_, value) :: rest => max value.depth (membersDepth rest)

end

mutual

/-- No object anywhere in the value has a key twice. -/
def WellFormed : Json → Prop
  | .array items => ItemsWellFormed items
  | .object members => (Entries.keys members).Nodup ∧ MembersWellFormed members
  | _ => True

def ItemsWellFormed : List Json → Prop
  | [] => True
  | item :: rest => item.WellFormed ∧ ItemsWellFormed rest

def MembersWellFormed : List (String × Json) → Prop
  | [] => True
  | (_, value) :: rest => value.WellFormed ∧ MembersWellFormed rest

end

end Json

end DataCatalog
