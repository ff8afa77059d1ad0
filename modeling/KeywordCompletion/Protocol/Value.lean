import KeywordCompletion.Document
import KeywordCompletion.Json.Basic
import KeywordCompletion.Url.Parser

/-!
# Values in the messages of an editor

Readers for the values of which the parameters of messages consist. A record is an object, or an
array of its fields in order; an object may leave out what it does not set, an array may not.
-/

namespace KeywordCompletion.Protocol

/-- The fields of a record with the given names, as far as they are there. -/
def record? (names : List String) : Json → Option (List (Option Json))
  | .obj members => some (names.map fun name => (Json.obj members).member? name)
  | .arr items => if items.length = names.length then some (items.map some) else none
  | _ => none

def required? {α : Type} (read : Json → Option α) (field : Option Json) : Option α :=
  field.bind read

def url? (j : Json) : Option Url :=
  j.text?.bind fun t =>
    match Url.parse t with
    | .ok u => some u
    | .error _ => none

def position? (j : Json) : Option Position := do
  match ← record? ["line", "character"] j with
  | [line, character] =>
    let line ← required? (Json.unsigned? 32) line
    let character ← required? (Json.unsigned? 32) character
    return ⟨.ofNat line, .ofNat character⟩
  | _ => none

def range? (j : Json) : Option PositionRange := do
  match ← record? ["start", "end"] j with
  | [start, stop] => return ⟨← required? position? start, ← required? position? stop⟩
  | _ => none

def change? (j : Json) : Option Change := do
  match ← record? ["range", "rangeLength", "text"] j with
  | [range, rangeLength, text] =>
    let range ← Json.optional? range? range
    let _ ← Json.optional? (Json.unsigned? 32) rangeLength
    return ⟨range, ← required? Json.text? text⟩
  | _ => none

def document? (j : Json) : Option Url := do
  match ← record? ["uri"] j with
  | [uri] => required? url? uri
  | _ => none

def versionedDocument? (j : Json) : Option (Url × Int) := do
  match ← record? ["uri", "version"] j with
  | [uri, version] => return (← required? url? uri, ← required? Json.int32? version)
  | _ => none

def documentItem? (j : Json) : Option (Url × Text × Int) := do
  match ← record? ["uri", "languageId", "version", "text"] j with
  | [uri, languageId, version, text] =>
    let uri ← required? url? uri
    let _ ← required? Json.text? languageId
    let version ← required? Json.int32? version
    return (uri, ← required? Json.text? text, version)
  | _ => none

def folder? (j : Json) : Option Url := do
  match ← record? ["uri", "name"] j with
  | [uri, name] =>
    let _ ← required? Json.text? name
    required? url? uri
  | _ => none

/-- A token of the editor: a number or a string. -/
def token? : Json → Option Json
  | .str t => some (.str t)
  | .int n => if -0x80000000 ≤ n ∧ n < 0x80000000 then some (.int n) else none
  | _ => none

end KeywordCompletion.Protocol
