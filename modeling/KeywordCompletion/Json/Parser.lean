import KeywordCompletion.Json.Basic

/-!
# Reading JSON

`Json.parse?` reads a text that is one JSON value with white space around it. Arrays and objects
nest at most 127 deep.
-/

namespace KeywordCompletion.Json

/-- The white space between the tokens of JSON. -/
def isSpace (c : Char) : Bool := c == ' ' || c == '\t' || c == '\n' || c == '\r'

/-- A text without the white space at its head. -/
def skipSpace (t : Text) : Text := t.dropWhile isSpace

def hexDigit? (c : Char) : Option Nat :=
  if '0' ≤ c ∧ c ≤ '9' then some (c.toNat - '0'.toNat)
  else if 'a' ≤ c ∧ c ≤ 'f' then some (c.toNat - 'a'.toNat + 10)
  else if 'A' ≤ c ∧ c ≤ 'F' then some (c.toNat - 'A'.toNat + 10)
  else none

/-- The four hexadecimal digits at the head of a text, and what follows them. -/
def hexUnit? : Text → Option (Nat × Text)
  | a :: b :: c :: d :: rest => do
    let a ← hexDigit? a
    let b ← hexDigit? b
    let c ← hexDigit? c
    let d ← hexDigit? d
    return (((a * 16 + b) * 16 + c) * 16 + d, rest)
  | _ => none

/-- The character that a `\u` escape stands for, from its four digits on. Two escapes stand for one
character beyond the basic plane; a surrogate alone stands for none. -/
def unicodeEscape? (t : Text) : Option (Char × Text) :=
  match hexUnit? t with
  | none => none
  | some (high, rest) =>
    if high < 0xD800 ∨ 0xDFFF < high then some (Char.ofNat high, rest)
    else if 0xDC00 ≤ high then none
    else match rest with
      | '\\' :: 'u' :: rest =>
        match hexUnit? rest with
        | some (low, rest) =>
          if 0xDC00 ≤ low ∧ low ≤ 0xDFFF then
            some (Char.ofNat (0x10000 + (high - 0xD800) * 0x400 + (low - 0xDC00)), rest)
          else none
        | none => none
      | _ => none

/-- The character that an escape stands for, from the character after the backslash on. -/
def escape? : Text → Option (Char × Text)
  | '"' :: rest => some ('"', rest)
  | '\\' :: rest => some ('\\', rest)
  | '/' :: rest => some ('/', rest)
  | 'b' :: rest => some ('\x08', rest)
  | 'f' :: rest => some ('\x0c', rest)
  | 'n' :: rest => some ('\n', rest)
  | 'r' :: rest => some ('\r', rest)
  | 't' :: rest => some ('\t', rest)
  | 'u' :: rest => unicodeEscape? rest
  | _ => none

/-- The rest of a string after its opening quote, with the characters before it in reverse. -/
def stringTail? : Nat → Text → Text → Option (Text × Text)
  | 0, _, _ => none
  | fuel + 1, before, t =>
    match t with
    | [] => none
    | '"' :: rest => some (before.reverse, rest)
    | '\\' :: rest =>
      match escape? rest with
      | some (c, rest) => stringTail? fuel (c :: before) rest
      | none => none
    | c :: rest => if c.toNat < 0x20 then none else stringTail? fuel (c :: before) rest

/-- The digits at the head of a text, at least one of them, and what follows. -/
def digits? (t : Text) : Option (Text × Text) :=
  match t.takeWhile Char.isDigit with
  | [] => none
  | ds => some (ds, t.dropWhile Char.isDigit)

/-- The fraction at the head of a text, if there is one. -/
def fraction? : Text → Option (Text × Text)
  | '.' :: rest => (digits? rest).map fun (ds, rest) => ('.' :: ds, rest)
  | t => some ([], t)

/-- The exponent at the head of a text, if there is one. -/
def exponent? : Text → Option (Text × Text)
  | [] => some ([], [])
  | c :: rest =>
    if c == 'e' || c == 'E' then
      match rest with
      | '+' :: rest => (digits? rest).map fun (ds, rest) => ('e' :: ds, rest)
      | '-' :: rest => (digits? rest).map fun (ds, rest) => ('e' :: '-' :: ds, rest)
      | _ => (digits? rest).map fun (ds, rest) => ('e' :: ds, rest)
    else some ([], c :: rest)

def decimal (ds : Text) : Nat := ds.foldl (fun n c => n * 10 + (c.toNat - '0'.toNat)) 0

def numberTail? (negative : Bool) (t : Text) : Option (Json × Text) := do
  let (whole, rest) ← digits? t
  if whole.length ≠ 1 ∧ whole.head? = some '0' then none
  let (fraction, rest) ← fraction? rest
  let (exponent, rest) ← exponent? rest
  let sign := if negative then ['-'] else []
  let n := decimal whole
  let integral := fraction.isEmpty && exponent.isEmpty &&
    (if negative then 0 < n && n ≤ 0x8000000000000000 else n < 0x10000000000000000)
  return (if integral then int (if negative then -n else n)
    else real (sign ++ whole ++ fraction ++ exponent), rest)

mutual

/-- The value at the head of a text, when arrays and objects may nest `depth` more levels. -/
def parseValue? : Nat → Nat → Text → Option (Json × Text)
  | 0, _, _ => none
  | fuel + 1, depth, t =>
    match skipSpace t with
    | 'n' :: 'u' :: 'l' :: 'l' :: rest => some (null, rest)
    | 't' :: 'r' :: 'u' :: 'e' :: rest => some (bool true, rest)
    | 'f' :: 'a' :: 'l' :: 's' :: 'e' :: rest => some (bool false, rest)
    | '"' :: rest => (stringTail? (rest.length + 1) [] rest).map fun (s, rest) => (str s, rest)
    | '-' :: rest => numberTail? true rest
    | '[' :: rest =>
      match depth with
      | 0 => none
      | depth + 1 =>
        match skipSpace rest with
        | ']' :: rest => some (arr [], rest)
        | rest => parseItems? fuel depth [] rest
    | '\x7b' :: rest =>
      match depth with
      | 0 => none
      | depth + 1 =>
        match skipSpace rest with
        | '\x7d' :: rest => some (obj [], rest)
        | rest => parseMembers? fuel depth [] rest
    | rest => numberTail? false rest

/-- The rest of an array from an item on, with the items before it in reverse. -/
def parseItems? : Nat → Nat → List Json → Text → Option (Json × Text)
  | 0, _, _, _ => none
  | fuel + 1, depth, before, t =>
    match parseValue? fuel depth t with
    | none => none
    | some (item, rest) =>
      match skipSpace rest with
      | ',' :: rest => parseItems? fuel depth (item :: before) rest
      | ']' :: rest => some (arr (item :: before).reverse, rest)
      | _ => none

/-- The rest of an object from a member on, with the members before it in reverse. -/
def parseMembers? : Nat → Nat → List (String × Json) → Text → Option (Json × Text)
  | 0, _, _, _ => none
  | fuel + 1, depth, before, t =>
    match skipSpace t with
    | '"' :: rest =>
      match stringTail? (rest.length + 1) [] rest with
      | none => none
      | some (key, rest) =>
        match skipSpace rest with
        | ':' :: rest =>
          match parseValue? fuel depth rest with
          | none => none
          | some (value, rest) =>
            match skipSpace rest with
            | ',' :: rest => parseMembers? fuel depth ((String.ofList key, value) :: before) rest
            | '\x7d' :: rest =>
              some (obj ((String.ofList key, value) :: before).reverse, rest)
            | _ => none
        | _ => none
    | _ => none

end

def parse? (t : Text) : Option Json :=
  match parseValue? (2 * t.length + 2) 127 t with
  | some (j, rest) => if (skipSpace rest).isEmpty then some j else none
  | none => none

end KeywordCompletion.Json
