import KeywordCompletion.Row.Basic
import KeywordCompletion.Span

/-!
# Where a keyword is completed

The second cell of a step names a keyword. Its region is where the cursor counts as being in that
name, and what an accepted keyword replaces. Offsets here count from the start of the row.
-/

namespace KeywordCompletion

/-- The keyword column of a row: the first and the last offset at which the cursor is in it, and
the offset from which text is replaced up to the last one. -/
structure KeywordRegion where
  left : Nat
  right : Nat
  replaceStart : Nat
  deriving DecidableEq, Repr

namespace KeywordRegion

/-- Whether the cursor is in the keyword. -/
def contains (r : KeywordRegion) (cursor : Nat) : Bool := r.left ≤ cursor && cursor ≤ r.right

/-- Whether the cursor is in the keyword and at neither end of it. -/
def strictlyContains (r : KeywordRegion) (cursor : Nat) : Bool :=
  r.left < cursor && cursor < r.right

/-- What an accepted keyword replaces in the text of which the row starts at an offset. -/
def replaced (r : KeywordRegion) (rowStart : Nat) : Span :=
  ⟨rowStart + r.replaceStart, rowStart + r.right⟩

/-- The region starts past the separator after the first cell. -/
def leftOf (t : Text) (row : Row) : Nat :=
  skipSeparator t (match row.cell? 0 with
    | some name => name.stop - row.start
    | none => 0)

/-- The region ends with the keyword when arguments follow it, else with the last cell before a
comment, else with the row. -/
def rightOf (t : Text) (row : Row) : Nat :=
  match row.cells with
  | _ :: keyword :: _ :: _ => keyword.stop - row.start
  | cells =>
    if row.comment.isSome then
      match cells.getLast? with
      | some last => last.stop - row.start
      | none => 0
    else Text.size t

/-- What is replaced starts with the keyword, or where one would start. -/
def replaceStartOf (t : Text) (row : Row) : Nat :=
  match row.cell? 1 with
  | some keyword => keyword.start - row.start
  | none => leftOf t row

/-- The keyword region of a row with the given text, if the row calls a keyword. -/
def of? (t : Text) (row : Row) : Option KeywordRegion :=
  if row.kind.isKeywordCall then some ⟨leftOf t row, rightOf t row, replaceStartOf t row⟩ else none

end KeywordRegion

end KeywordCompletion
