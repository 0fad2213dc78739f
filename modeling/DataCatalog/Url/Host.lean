import DataCatalog.Url.Percent

/-!
# Hosts

The host of a URL is a domain name in lower case, an address of four bytes, or an address of eight
groups in brackets.  A name whose last label is a number must be an address of four bytes.  A name
with characters beyond ASCII, or with labels that stand for such, is put into ASCII by a conversion
that is given: it rests on the tables of Unicode, which are not part of this library.
-/

namespace DataCatalog.Url

inductive ParseError where
  | relative
  | emptyHost
  | invalidDomain
  | invalidDomainCharacter
  | invalidIpv4
  | invalidIpv6
  | invalidPort
  deriving DecidableEq

def ParseError.message : ParseError → String
  | .relative => "relative URL without a base"
  | .emptyHost => "empty host"
  | .invalidDomain => "invalid international domain name"
  | .invalidDomainCharacter => "invalid domain character"
  | .invalidIpv4 => "invalid IPv4 address"
  | .invalidIpv6 => "invalid IPv6 address"
  | .invalidPort => "invalid port number"

/-- The parts of a text between separators; there is always at least one. -/
def splitOn (separator : Char → Bool) : List Char → List (List Char)
  | [] => [[]]
  | c :: rest =>
    if separator c then [] :: splitOn separator rest
    else
      match splitOn separator rest with
      | part :: parts => (c :: part) :: parts
      | [] => [[c]]

def digitsValue (base : Nat) (digits : List Char) : Nat :=
  digits.foldl (fun value c => base * value + (Text.hexValue? c).getD 0) 0

/-- A part of an address of four bytes: decimal, octal after `0`, or of base sixteen after `0x`. -/
def ipv4Number? (s : List Char) : Option Nat :=
  let (base, digits) :=
    match s with
    | '0' :: 'x' :: rest => (16, rest)
    | '0' :: 'X' :: rest => (16, rest)
    | '0' :: c :: rest => (8, c :: rest)
    | s => (10, s)
  let valid := digits.all fun c =>
    match Text.hexValue? c with
    | some n => n < base
    | none => false
  if s ≠ [] ∧ valid then some (digitsValue base digits) else none

/-- The parts of a name between dots, without an empty one after a final dot. -/
def labels (name : List Char) : List (List Char) :=
  let parts := splitOn (· == '.') name
  if parts.getLast? = some [] then parts.dropLast else parts

def endsInNumber (name : List Char) : Bool :=
  match (labels name).getLast? with
  | none => false
  | some last => (last != [] && last.all Char.isDigit) || (ipv4Number? last).isSome

/-- The address of one to four numbers: all but the last one are bytes, the last one fills the
rest. -/
def ipv4? (name : List Char) : Option Nat := do
  let numbers ← (labels name).mapM ipv4Number?
  let last ← numbers.getLast?
  let leading := numbers.dropLast
  if numbers.length ≤ 4 ∧ leading.all (· ≤ 255) ∧ last < Nat.pow 256 (4 - leading.length) then
    some (leading.foldl (fun value n => 256 * value + n) 0 * Nat.pow 256 (4 - leading.length) + last)
  else none

/-- One byte in decimal digits without a leading zero. -/
def decimalByte? (s : List Char) : Option Nat :=
  let value := digitsValue 10 s
  if s ≠ [] ∧ s.all Char.isDigit ∧ value ≤ 255 ∧ (s.head? ≠ some '0' ∨ s = ['0']) then some value
  else none

/-- One to four digits of base sixteen. -/
def hexGroup? (s : List Char) : Option Nat :=
  if s ≠ [] ∧ s.length ≤ 4 ∧ s.all (fun c => (Text.hexValue? c).isSome) then
    some (digitsValue 16 s)
  else none

/-- The groups of a part of an address: the last one may be spelled as four bytes, if `quad` is
set. -/
def hexGroups? (quad : Bool) : List (List Char) → Option (List Nat)
  | [] => some []
  | [last] =>
    match hexGroup? last with
    | some group => some [group]
    | none =>
      if quad then
        match (splitOn (· == '.') last).mapM decimalByte? with
        | some [a, b, c, d] => some [256 * a + b, 256 * c + d]
        | _ => none
      else none
  | group :: rest => do
    let first ← hexGroup? group
    let more ← hexGroups? quad rest
    some (first :: more)

/-- The groups of a text between colons; an empty text has none. -/
def groups? (quad : Bool) (s : List Char) : Option (List Nat) :=
  if s = [] then some [] else hexGroups? quad (splitOn (· == ':') s)

/-- The text before and after the first `::`. -/
def splitGap : List Char → Option (List Char × List Char)
  | [] => none
  | ':' :: ':' :: rest => some ([], rest)
  | c :: rest => (splitGap rest).map fun (before, after) => (c :: before, after)

/-- The eight groups of an address; a gap stands for at least one group of zeros. -/
def ipv6? (s : List Char) : Option (List Nat) :=
  match splitGap s with
  | some (before, after) => do
    let left ← groups? false before
    let right ← groups? true after
    if left.length + right.length ≤ 7 then
      some (left ++ List.replicate (8 - left.length - right.length) 0 ++ right)
    else none
  | none => do
    let groups ← groups? true s
    if groups.length = 8 then some groups else none

/-- The place and length of the first longest run of zeros. -/
def longestGap (groups : List Nat) : Nat × Nat :=
  (List.range groups.length).foldl
    (fun best start =>
      let size := ((groups.drop start).takeWhile (· == 0)).length
      if best.2 < size then (start, size) else best)
    (0, 0)

def writeGroups (groups : List Nat) : List Char :=
  [':'].intercalate (groups.map (Nat.toDigits 16))

/-- The eight groups, the first longest run of at least two zeros being left out. -/
def writeIpv6 (groups : List Nat) : List Char :=
  let (start, size) := longestGap groups
  if size < 2 then writeGroups groups
  else writeGroups (groups.take start) ++ ':' :: ':' :: writeGroups (groups.drop (start + size))

def writeIpv4 (address : Nat) : List Char :=
  ['.'].intercalate
    ([address / 0x1000000, address / 0x10000 % 256, address / 256 % 256, address % 256].map
      (Nat.toDigits 10))

/-- The characters that no domain name has. -/
def isForbiddenInDomain (c : Char) : Bool :=
  isControl c
    || [' ', '#', '%', '/', ':', '<', '>', '?', '@', '[', '\\', ']', '^', '|'].contains c

/-- A conversion of domain names to ASCII.  A name that has no valid form has none. -/
abbrev ToAscii : Type :=
  String → Option String

/-- The conversion that knows the forms of these names and no others. -/
def ToAscii.known (forms : List (String × String)) : ToAscii :=
  fun name => if name ∈ forms.map Prod.snd then some name else forms.lookup name

/-- Is the name one of ASCII in which each label stands for itself? -/
def isPlainName (name : List Char) : Bool :=
  name.all isAscii && !(splitOn (· == '.') name).any fun label => "xn--".toList.isPrefixOf label

/-- The form of a name in ASCII.  Plain names are only put into lower case. -/
def asciiForm? (toAscii : ToAscii) (name : String) : Option (List Char) :=
  let lower := name.toList.map Char.toLower
  if isPlainName lower then some lower else (toAscii name).map String.toList

/-- The written form of a domain name or an address of four bytes. -/
def parseDomain (toAscii : ToAscii) (s : List Char) : Except ParseError (List Char) :=
  match (text? (decode s)).bind (asciiForm? toAscii) with
  | none => .error .invalidDomain
  | some name =>
    if name.any isForbiddenInDomain then .error .invalidDomain
    else if name = [] then .error .emptyHost
    else if endsInNumber name then
      match ipv4? name with
      | some address => .ok (writeIpv4 address)
      | none => .error .invalidIpv4
    else .ok name

/-- The written form of an address in brackets, if the text starts with one. -/
def parseBracketed? (s : List Char) : Option (Except ParseError (List Char)) :=
  match s with
  | '[' :: inner =>
    some <|
      match if inner.getLast? = some ']' then ipv6? inner.dropLast else none with
      | some groups => .ok ('[' :: (writeIpv6 groups ++ [']']))
      | none => .error .invalidIpv6
  | _ => none

/-- The written form of the host of a web address. -/
def parseHost (toAscii : ToAscii) (s : List Char) : Except ParseError (List Char) :=
  match parseBracketed? s with
  | some result => result
  | none => parseDomain toAscii s

/-- The characters that no host of any scheme has. -/
def isForbiddenInHost (c : Char) : Bool :=
  ['\x00', '\t', '\n', '\r', ' ', '#', '/', ':', '<', '>', '?', '@', '[', '\\', ']', '^',
    '|'].contains c

/-- The written form of the host of another scheme, which may be empty. -/
def parseOpaqueHost (s : List Char) : Except ParseError (List Char) :=
  match parseBracketed? s with
  | some result => result
  | none =>
    if s.any isForbiddenInHost then .error .invalidDomainCharacter
    else .ok (encode isControl s)

end DataCatalog.Url
