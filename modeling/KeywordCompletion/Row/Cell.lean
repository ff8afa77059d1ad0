import KeywordCompletion.Row.Separator

/-!
# Cells of a row

`splitCells` cuts a row at its separators. What stands between two separators, without single
blanks around it, is a cell. A row that opens with a separator has an empty first cell. The first
`#` that opens a cell starts a comment, which runs to the last character that is no blank.
-/

namespace KeywordCompletion

/-- A cell or comment: its text, and the bytes at which it starts and ends. -/
structure Cell where
  value : Text
  start : Nat
  stop : Nat
  deriving DecidableEq, Repr

namespace Cell

def isEmpty (c : Cell) : Bool := c.value.isEmpty

/-- The offsets of a cell as 64-bit words. -/
def words (c : Cell) : UInt64 × UInt64 := (UInt64.ofNat c.start, UInt64.ofNat c.stop)

end Cell

namespace Token

/-- Whether a token, standing where a cell opens, starts a comment. -/
def opensComment (t : Token) : Bool := t.kind == .text && t.text.head? == some '#'

/-- The tokens before the comment of a row, and those of the comment. With `fresh` no cell is
open. -/
def cutComment (fresh : Bool) : List Token → List Token × List Token
  | [] => ([], [])
  | t :: ts =>
    if fresh && t.opensComment then ([], t :: ts)
    else
      let cut := cutComment (t.isSeparator || (fresh && t.kind == .blank)) ts
      (t :: cut.1, cut.2)

/-- The stretches of tokens before, between and after the separators of a row. -/
def segments (ts : List Token) : List (List Token) := cut isSeparator ts

def trimBlanks (ts : List Token) : List Token :=
  let isBlank := fun t : Token => t.kind == .blank
  ((ts.dropWhile isBlank).reverse.dropWhile isBlank).reverse

/-- The cell that a stretch of tokens holds, in a row that starts at byte `base`. -/
def cell? (base : Nat) (ts : List Token) : Option Cell :=
  match trimBlanks ts with
  | [] => none
  | t :: more =>
    let value := (t :: more).flatMap Token.text
    some ⟨value, base + t.start, base + t.start + Text.size value⟩

def emptyFirst (base : Nat) : List (List Token) → List Cell
  | [] :: _ :: _ => [⟨[], base, base⟩]
  | _ => []

def comment? (base : Nat) : List Token → Option Cell
  | [] => none
  | t :: more =>
    let value := Text.trimEnd Text.isBlank ((t :: more).flatMap Token.text)
    some ⟨value, base + t.start, base + t.start + Text.size value⟩

end Token

/-- The cells of a row that starts at byte `base`, and its comment. -/
def splitCells (t : Text) (base : Nat) : List Cell × Option Cell :=
  let (body, comment) := Token.cutComment true (Token.lex t)
  let parts := Token.segments body
  (Token.emptyFirst base parts ++ parts.filterMap (Token.cell? base), Token.comment? base comment)

end KeywordCompletion
