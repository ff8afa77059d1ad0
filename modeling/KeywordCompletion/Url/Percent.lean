import KeywordCompletion.Text.Utf8

/-!
# Percent-encoding

A URL writes a byte that may not stand for itself as `%` and two hexadecimal digits. Which bytes
those are depends on the part of the URL; bytes beyond ASCII are always among them.
-/

namespace KeywordCompletion.Url

/-- A control character or a byte beyond ASCII. -/
def isControl (b : UInt8) : Bool := b < 0x20 || 0x7E < b

def isOneOf (chars : String) (b : UInt8) : Bool := chars.toList.any fun c => c.toNat == b.toNat

def inFragment (b : UInt8) : Bool := isControl b || isOneOf " \"<>`" b

/-- What is encoded in a query, where a URL of a special scheme encodes the apostrophe too. -/
def inQuery (special : Bool) (b : UInt8) : Bool :=
  isControl b || isOneOf " \"#<>" b || (special && isOneOf "'" b)

def inPath (b : UInt8) : Bool := inFragment b || isOneOf "#?\x7b\x7d" b

def inUserInfo (b : UInt8) : Bool := inPath b || isOneOf "/:;=@[\\]^|" b

/-- What is encoded in the name of a file, so that it is one segment of a path and the same after
decoding. -/
def inFileName (b : UInt8) : Bool := inPath b || isOneOf "/%\\" b

def hexDigit (n : Nat) : Char :=
  if n < 10 then Char.ofNat ('0'.toNat + n) else Char.ofNat ('A'.toNat + n - 10)

/-- Bytes as text, each encoded if a set says so. -/
def percentEncode (encoded : UInt8 → Bool) (bytes : Bytes) : Text :=
  bytes.flatMap fun b =>
    if encoded b then ['%', hexDigit (b.toNat / 16), hexDigit (b.toNat % 16)]
    else [Char.ofNat b.toNat]

def hexValue? (b : UInt8) : Option UInt8 :=
  if 0x30 ≤ b && b ≤ 0x39 then some (b - 0x30)
  else if 0x61 ≤ b && b ≤ 0x66 then some (b - 0x61 + 10)
  else if 0x41 ≤ b && b ≤ 0x46 then some (b - 0x41 + 10)
  else none

/-- The bytes that percent-encoded bytes stand for. A `%` without two digits stands for itself. -/
def percentDecode : Bytes → Bytes
  | 0x25 :: high :: low :: rest =>
    match hexValue? high, hexValue? low with
    | some h, some l => (h * 16 + l) :: percentDecode rest
    | _, _ => 0x25 :: percentDecode (high :: low :: rest)
  | b :: rest => b :: percentDecode rest
  | [] => []

end KeywordCompletion.Url
