import KeywordCompletion.Row.Token

/-!
# Separators

Cells are separated by two or more blanks, or by a run of blanks with a tab in it. A single space
is part of a cell.
-/

namespace KeywordCompletion

def isSeparatorRun (run : Text) : Bool := 2 ≤ run.length || run.any (· == '\t')

/-- The length of the separator that starts at a byte, if one does. -/
def separatorAt (t : Text) (start : Nat) : Option Nat :=
  match Text.drop? t start with
  | none => none
  | some rest =>
    let run := rest.takeWhile Text.isBlank
    if isSeparatorRun run then some run.length else none

/-- The first byte from `start` on that is past a separator starting there; past the end of the
text it is that end. -/
def skipSeparator (t : Text) (start : Nat) : Nat :=
  if Text.size t ≤ start then Text.size t
  else match separatorAt t start with
    | some length => start + length
    | none => start

def Token.isSeparator (t : Token) : Bool := t.kind == .blank && isSeparatorRun t.text

end KeywordCompletion
