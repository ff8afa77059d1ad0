import KeywordCompletion.Text.Basic
import KeywordCompletion.Text.CaseData

/-!
# Lower case

The full lower-case form of a text. A capital sigma at the end of a word becomes `ς`, every other
one `σ`; whether a word ends there depends on the characters around it, so the lower-case form of a
part of a text need not be a part of the lower-case form of the text.
-/

namespace KeywordCompletion.Text

/-- The Unicode property `Cased`, for a character that is not `Case_Ignorable`. -/
def isCased (c : Char) : Bool :=
  casedRanges.any fun (first, last) => first ≤ c.toNat && c.toNat ≤ last

/-- The Unicode property `Case_Ignorable`. -/
def isCaseIgnorable (c : Char) : Bool :=
  caseIgnorableRanges.any fun (first, last) => first ≤ c.toNat && c.toNat ≤ last

/-- The lower-case form of a single character, away from any context. -/
def lowercaseChar (c : Char) : Text :=
  if c.toNat < 0x80 then [c.toLower]
  else if c = 'İ' then ['i', '\u0307']
  else
    let run? := lowercaseRuns.find? fun (first, last, step, _) =>
      first ≤ c.toNat && c.toNat ≤ last && (c.toNat - first) % step == 0
    match run? with
    | some (_, _, _, shift) => [Char.ofNat (c.toNat + shift).toNat]
    | none => [c]

/-- Whether a cased character follows, after any number of characters that case ignores. -/
def casedAhead (t : Text) : Bool :=
  match t.dropWhile isCaseIgnorable with
  | [] => false
  | c :: _ => isCased c

/-- The lower-case form of a text, where `casedBehind` tells whether a cased character stands
before it. -/
def lowercaseFrom (casedBehind : Bool) : Text → Text
  | [] => []
  | c :: t =>
    let form :=
      if c = 'Σ' then [if casedBehind && !casedAhead t then 'ς' else 'σ'] else lowercaseChar c
    form ++ lowercaseFrom (if isCaseIgnorable c then casedBehind else isCased c) t

/-- The lower-case form of a text. -/
def lowercase (t : Text) : Text := lowercaseFrom false t

/-- Whether two texts are equal up to the case of ASCII letters. -/
def eqIgnoringAsciiCase (s t : Text) : Bool := s.map Char.toLower == t.map Char.toLower

end KeywordCompletion.Text
