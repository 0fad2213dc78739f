import DataCatalog.Binary64.Numeral
import DataCatalog.Codec.Encode
import DataCatalog.Text.Blank

/-!
# Reading scalars and metadata

A scalar is read by the type that its tag names, or by its own form where there is no tag.  A
whole number is read from a double by cutting off the fraction, and from a text by its digits.
Metadata has three written forms: an array of triples, an array of pairs of key and value, and a
plain object.
-/

namespace DataCatalog

/-- The whole part, if it is in the signed 64-bit range. -/
def Binary64.toInt64? : Binary64 → Option Int64
  | .finite x =>
    let n := x.truncate
    if -0x8000000000000000 ≤ n ∧ n < 0x8000000000000000 then some (.ofInt n) else none
  | _ => none

namespace Scalar

def ofJson? : ScalarKind → Json → Option Scalar
  | .integer, .number n => (n.toInt64? <|> n.toBinary64.toInt64?).map .integer
  | .integer, .string s => (Text.parseInt64 (Text.trim s.toList)).toOption.map .integer
  | .decimal, .number n => some (.decimal n.toBinary64)
  | .decimal, .string s =>
    match Binary64.parse? (Text.trim s.toList) with
    | some x => if x.isFinite then some (.decimal x) else none
    | none => none
  | .text, .string s => some (.text s)
  | .text, .number n => some (.text (Json.number n).render)
  | _, _ => none

/-- The scalar that a value is by itself: a number too large for a whole number is a double. -/
def infer? : Json → Option Scalar
  | .number n =>
    match n.toInt64? with
    | some i => some (.integer i)
    | none => some (.decimal n.toBinary64)
  | .string s => some (.text s)
  | _ => none

end Scalar

namespace Codec

def isTriple (members : List (String × Json)) : Bool :=
  ["key", "value", "type"].all fun key => (Entries.get? key members).isSome

/-- The type tag of a metadata entry; anything but a text counts as the empty tag. -/
def typeTag (members : List (String × Json)) : String :=
  match Entries.get? "type" members with
  | some (.string tag) => tag
  | _ => ""

/-- Reads an object that has the members of a metadata entry. -/
def readTriple (c : Codec) (members : List (String × Json)) : Except Error (String × Scalar) :=
  match Entries.get? "key" members with
  | some (.string key) =>
    match c.types.kindFor? (typeTag members) with
    | none => .error ((Cause.unknownMetadataType (typeTag members)).atField key)
    | some kind =>
      let value := (Entries.get? "value" members).getD .null
      match Scalar.ofJson? kind value with
      | some scalar => .ok (key, scalar)
      | none => .error ((Cause.unreadableScalar value kind).atField key)
  | _ => .error (Cause.metadataKeyNotString.atField "key")

/-- Reads a pair of a key and a value that shows its type by itself. -/
def readPair (field : String) (key : String) (value : Json) : Except Error (String × Scalar) :=
  match Scalar.infer? value with
  | some scalar => .ok (key, scalar)
  | none => .error (Cause.malformedMetadata.atField field)

def readEntry (c : Codec) (field : String) : Json → Except Error (String × Scalar)
  | .object members =>
    if isTriple members then c.readTriple members
    else .error (Cause.notATriple.atField field)
  | .array [.string key, value] => readPair field key value
  | _ => .error (Cause.malformedMetadata.atField field)

/-- Reads metadata in any of its forms; null is no metadata. -/
def readMetadata (c : Codec) (field : String) : Json → Except Error Metadata
  | .null => .ok .empty
  | .array items => (items.mapM (c.readEntry field)).map .ofList
  | .object members => (members.mapM fun (key, value) => readPair field key value).map .ofList
  | _ => .error (Cause.malformedMetadata.atField field)

/-- Reads a whole number; null is no number. -/
def readInteger (field : String) : Json → Except Error (Option Int64)
  | .null => .ok none
  | .number n =>
    match n.toInt64? with
    | some i => .ok (some i)
    | none => .error ((Cause.expectedInteger (.number n)).atField field)
  | value => .error ((Cause.expectedInteger value).atField field)

/-- Reads a text; null is no text. -/
def readText (field : String) : Json → Except Error (Option String)
  | .null => .ok none
  | .string s => .ok (some s)
  | value => .error ((Cause.expectedString value).atField field)

def readField (c : Codec) (field : String) :
    (type : FieldType) → Json → Except Error (Option type.Value)
  | .integer, value => readInteger field value
  | .text, value => readText field value
  | .metadata, value =>
    (c.readMetadata field value).map fun m => if Metadata.truthy m then some m else none

end Codec

end DataCatalog
