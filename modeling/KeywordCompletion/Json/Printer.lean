import KeywordCompletion.Json.Basic

/-!
# Writing JSON

`Json.print` writes a value on one line without spaces. Quotes, backslashes and control characters
are escaped, every other character stands for itself.
-/

namespace KeywordCompletion.Json

def hexDigit (n : Nat) : Char :=
  if n < 10 then Char.ofNat ('0'.toNat + n) else Char.ofNat ('a'.toNat + n - 10)

def quoteChar (out : String) (c : Char) : String :=
  if c == '"' then out ++ "\\\""
  else if c == '\\' then out ++ "\\\\"
  else if c.toNat < 0x20 then
    ((out ++ "\\u00").push (hexDigit (c.toNat / 16))).push (hexDigit (c.toNat % 16))
  else out.push c

def quote (out : String) (t : Text) : String := (t.foldl quoteChar (out.push '"')).push '"'

mutual

def printAfter (out : String) : Json → String
  | null => out ++ "null"
  | bool true => out ++ "true"
  | bool false => out ++ "false"
  | int n => out ++ toString n
  | real literal => out ++ String.ofList literal
  | str t => quote out t
  | arr [] => out ++ "[]"
  | arr (item :: items) => (printItems (printAfter (out.push '[') item) items).push ']'
  | obj [] => (out.push '\x7b').push '\x7d'
  | obj ((key, value) :: members) =>
    (printMembers (printAfter ((quote (out.push '\x7b') key.toList).push ':') value) members).push
      '\x7d'

def printItems (out : String) : List Json → String
  | [] => out
  | item :: items => printItems (printAfter (out.push ',') item) items

def printMembers (out : String) : List (String × Json) → String
  | [] => out
  | (key, value) :: members =>
    printMembers (printAfter ((quote (out.push ',') key.toList).push ':') value) members

end

def print (j : Json) : String := printAfter "" j

end KeywordCompletion.Json
