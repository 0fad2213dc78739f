import DataCatalog.Binary64.Decimal
import DataCatalog.OrderedMap
import DataCatalog.Tag
import DataCatalog.Text.Integer
import DataCatalog.Text.Quoted

/-!
# Metadata

A scalar is a whole number, a double or a text.  Metadata maps keys to scalars in insertion order.
-/

namespace DataCatalog

inductive Scalar where
  | integer (value : Int64)
  | decimal (value : Binary64)
  | text (value : String)
  deriving DecidableEq

namespace Scalar

def kind : Scalar → ScalarKind
  | .integer _ => .integer
  | .decimal _ => .decimal
  | .text _ => .text

def toInt64? : Scalar → Option Int64
  | .integer n => some n
  | _ => none

def toBinary64? : Scalar → Option Binary64
  | .decimal x => some x
  | _ => none

def toText? : Scalar → Option String
  | .text s => some s
  | _ => none

/-- Zero and the empty text carry no information. -/
def truthy : Scalar → Bool
  | .integer n => n != 0
  | .decimal x => !x.isZero
  | .text s => s != ""

def display : Scalar → String
  | .integer n => String.ofList (Text.writeInt n.toInt)
  | .decimal x => x.display
  | .text s => s

/-- Equality of values of one type: not a number differs from itself, and the zeros are equal. -/
def same : Scalar → Scalar → Bool
  | .integer m, .integer n => m == n
  | .decimal x, .decimal y => x.same y
  | .text s, .text t => s == t
  | _, _ => false

end Scalar

/-- Keyed scalars in insertion order. -/
abbrev Metadata : Type :=
  OrderedMap Scalar

namespace Metadata

def truthy (m : Metadata) : Bool :=
  !m.isEmpty

/-- Equality entry by entry, in order. -/
def same (m n : Metadata) : Bool :=
  m.size == n.size
    && (m.entries.zip n.entries).all fun (a, b) => a.1 == b.1 && a.2.same b.2

/-- An entry in a listing: texts are quoted, keys are not. -/
def displayEntry : String × Scalar → String
  | (key, .text s) => key ++ ": " ++ Text.quoted s
  | (key, value) => key ++ ": " ++ value.display

def display (m : Metadata) : String :=
  "\x7b" ++ ", ".intercalate (m.entries.map displayEntry) ++ "\x7d"

end Metadata

end DataCatalog
