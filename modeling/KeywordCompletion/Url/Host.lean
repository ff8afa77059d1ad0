import KeywordCompletion.Cut
import KeywordCompletion.Text.Lowercase
import KeywordCompletion.Url.Percent
import KeywordCompletion.Url.Punycode

/-!
# Hosts of URLs

A host is a domain, an IPv4 address or an IPv6 address in brackets. URLs with a special scheme give
domains in ASCII and read every domain that ends in a number as an IPv4 address.
-/

namespace KeywordCompletion

/-- Why a text is no URL. -/
inductive UrlError where
  | relativeWithoutBase
  | emptyHost
  | invalidDomain
  | invalidDomainCharacter
  | invalidIpv4
  | invalidIpv6
  | invalidPort
  deriving DecidableEq, Repr

namespace UrlError

def message : UrlError → String
  | relativeWithoutBase => "relative URL without a base"
  | emptyHost => "empty host"
  | invalidDomain => "invalid international domain name"
  | invalidDomainCharacter => "invalid domain character"
  | invalidIpv4 => "invalid IPv4 address"
  | invalidIpv6 => "invalid IPv6 address"
  | invalidPort => "invalid port number"

end UrlError

namespace Url

/-- A host. -/
inductive Host where
  | domain (name : Text)
  | ipv4 (address : Nat)
  | ipv6 (pieces : List Nat)
  deriving DecidableEq, Repr

namespace Host

/-- A number in lower-case digits of a base. -/
def digits (base n : Nat) : Text := Nat.toDigits base n

/-- The four bytes of an IPv4 address with points between them. -/
def renderIpv4 (n : Nat) : Text :=
  ['.'].intercalate ([n / 0x1000000, n / 0x10000 % 256, n / 0x100 % 256, n % 256].map (digits 10))

/-- The length of the run of zeros at the head of a list. -/
def zeros (pieces : List Nat) : Nat := (pieces.takeWhile (· == 0)).length

/-- Where the first longest run of zeros starts, and its length. -/
def longestZeros (pieces : List Nat) : Nat × Nat :=
  (List.range pieces.length).foldl (fun (start, length) i =>
    let here := zeros (pieces.drop i)
    if length < here then (i, here) else (start, length)) (0, 0)

/-- The pieces of an IPv6 address with colons between them, two colons for the first longest run of
at least two zeros. -/
def renderIpv6 (pieces : List Nat) : Text :=
  let join := fun pieces : List Nat => [':'].intercalate (pieces.map (digits 16))
  let (start, length) := longestZeros pieces
  if length < 2 then join pieces
  else join (pieces.take start) ++ [':', ':'] ++ join (pieces.drop (start + length))

def render : Host → Text
  | domain name => name
  | ipv4 address => renderIpv4 address
  | ipv6 pieces => ['['] ++ renderIpv6 pieces ++ [']']

/-- The value of a digit of a base of at most 16. -/
def digitValue? (base : Nat) (c : Char) : Option Nat :=
  let value? := if c.isDigit then some (c.toNat - '0'.toNat)
    else if 'a' ≤ c ∧ c ≤ 'f' then some (c.toNat - 'a'.toNat + 10)
    else if 'A' ≤ c ∧ c ≤ 'F' then some (c.toNat - 'A'.toNat + 10)
    else none
  value?.filter (· < base)

def number? (base : Nat) (t : Text) : Option Nat :=
  t.foldl (fun n? c => n?.bind fun n => (digitValue? base c).map (n * base + ·)) (some 0)

/-- A piece of an IPv4 address: decimal, octal after a zero, hexadecimal after `0x`. -/
def ipv4Number? : Text → Option Nat
  | [] => none
  | '0' :: 'x' :: t => number? 16 t
  | '0' :: 'X' :: t => number? 16 t
  | '0' :: c :: t => number? 8 (c :: t)
  | t => number? 10 t

/-- Whether the last label of a domain, one empty label after it left out, is a number. -/
def endsInNumber (domain : Text) : Bool :=
  match (cut (· == '.') domain).reverse with
  | [] :: last :: _ => isNumber last
  | [] => false
  | last :: _ => isNumber last
where
  isNumber (label : Text) : Bool :=
    (!label.isEmpty && label.all Char.isDigit) || (ipv4Number? label).isSome

/-- The address that an IPv4 address writes: up to four numbers, of which the last fills the bytes
that the others leave. -/
def parseIpv4 (domain : Text) : Except UrlError Nat :=
  let labels := cut (· == '.') domain
  let labels := if labels.getLast? = some [] then labels.dropLast else labels
  match labels.mapM ipv4Number? with
  | none => .error .invalidIpv4
  | some numbers =>
    match numbers.reverse with
    | [] => .error .invalidIpv4
    | last :: before =>
      if 3 < before.length ∨ Nat.pow 256 (4 - before.length) ≤ last ∨ before.any (255 < ·) then
        .error .invalidIpv4
      else .ok (last + (before.reverse.zipIdx.foldl (fun n (b, i) => n + b * Nat.pow 256 (3 - i)) 0))

/-- The two pieces of an IPv6 address that an IPv4 address at its end writes. -/
def ipv4Tail? (t : Text) : Option (List Nat) :=
  let byte? := fun label : Text =>
    if label.isEmpty || (label.length ≠ 1 && label.head? == some '0') then none
    else (number? 10 label).filter (· < 256)
  match (cut (· == '.') t).mapM byte? with
  | some [a, b, c, d] => some [a * 256 + b, c * 256 + d]
  | _ => none

/-- The pieces that a stretch of an IPv6 address without two colons writes. -/
def ipv6Pieces? (mayEndInIpv4 : Bool) (t : Text) : Option (List Nat) :=
  let fields := cut (· == ':') t
  let piece? := fun field : Text =>
    if field.isEmpty || 4 < field.length then none else number? 16 field
  match fields.getLast? with
  | none => none
  | some last =>
    if mayEndInIpv4 && last.contains '.' then do
      let front ← fields.dropLast.mapM piece?
      let back ← ipv4Tail? last
      return front ++ back
    else fields.mapM piece?

/-- The parts of a text before and after its first two colons. -/
def splitColons : Text → Option (Text × Text)
  | ':' :: ':' :: t => some ([], t)
  | c :: t => (splitColons t).map fun (before, after) => (c :: before, after)
  | [] => none

/-- The address that an IPv6 address writes. Two colons stand for one or more zeros. -/
def parseIpv6 (t : Text) : Except UrlError (List Nat) :=
  let pieces? : Option (List Nat) :=
    match splitColons t with
    | none => (ipv6Pieces? true t).filter (·.length == 8)
    | some (front, back) => do
      let front ← if front.isEmpty then some [] else ipv6Pieces? false front
      let back ← if back.isEmpty then some [] else ipv6Pieces? true back
      let known := front.length + back.length
      if known ≤ 7 then some (front ++ List.replicate (8 - known) 0 ++ back) else none
  match pieces? with
  | some pieces => .ok pieces
  | none => .error .invalidIpv6

/-- The IPv6 address in brackets, given the text from the opening bracket on. -/
def parseBracketed (t : Text) : Except UrlError Host :=
  if t.getLast? = some ']' then (parseIpv6 (t.drop 1).dropLast).map ipv6 else .error .invalidIpv6

def isForbiddenInDomain (c : Char) : Bool :=
  c.toNat ≤ 0x20 || c.toNat == 0x7F || "%#/:<>?@[\\]^|".toList.contains c

def asciiLabel (label : Text) : Text :=
  if label.all fun c => c.toNat < 0x80 then label
  else ['x', 'n', '-', '-'] ++ Punycode.encode label

def asciiDomain (domain : Text) : Except UrlError Text :=
  let lower := domain.flatMap Text.lowercaseChar
  if lower.any isForbiddenInDomain then .error .invalidDomain
  else .ok (['.'].intercalate ((cut (· == '.') lower).map asciiLabel))

/-- The host of a URL with a special scheme. -/
def parseSpecial (t : Text) : Except UrlError Host :=
  if t.head? = some '[' then parseBracketed t
  else
    match Text.decode? (percentDecode (Text.encode t)) with
    | none => .error .invalidDomain
    | some decoded => do
      let ascii ← asciiDomain decoded
      if ascii.isEmpty then .error .emptyHost
      else if endsInNumber ascii then (parseIpv4 ascii).map ipv4
      else return .domain ascii

/-- A character that the host of another URL may not hold. -/
def isForbiddenInHost (c : Char) : Bool := "\x00\t\n\r #/:<>?@[\\]^|".toList.contains c

/-- The host of a URL whose scheme is not special. -/
def parseOpaque (t : Text) : Except UrlError Host :=
  if t.head? = some '[' then parseBracketed t
  else if t.any isForbiddenInHost then .error .invalidDomainCharacter
  else .ok (.domain (percentEncode isControl (Text.encode t)))

end Host

end Url

end KeywordCompletion
