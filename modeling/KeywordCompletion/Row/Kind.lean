import KeywordCompletion.Row.Cell
import KeywordCompletion.Text.Lowercase

/-!
# Kinds of rows

A row whose first cell starts with `*` is the header of a table and decides, until the next
header, what the rows after it are.
-/

namespace KeywordCompletion

/-- The tables of a file of test data. -/
inductive Table where
  | settings
  | variables
  | testCases
  | keywords
  | comments
  | unknown
  deriving DecidableEq, Repr

namespace Table

/-- The name in a header: without the stars and white space around it, its words a space apart, in
lower case. -/
def normalName (header : Text) : Text :=
  let name := Text.trim (fun c => c == '*' || Text.isWhiteSpace c) header
  Text.lowercase ([' '].intercalate (Text.words name))

def names : List (String × Table) := [
  ("setting", .settings), ("settings", .settings), ("metadata", .settings),
  ("variable", .variables), ("variables", .variables),
  ("test case", .testCases), ("test cases", .testCases), ("testcase", .testCases),
  ("testcases", .testCases), ("task", .testCases), ("tasks", .testCases),
  ("keyword", .keywords), ("keywords", .keywords),
  ("user keyword", .keywords), ("user keywords", .keywords),
  ("comment", .comments), ("comments", .comments)]

def ofHeader (header : Text) : Table :=
  ((names.find? fun (name, _) => name.toList == normalName header).map Prod.snd).getD .unknown

end Table

/-- What a row is. -/
inductive RowKind where
  | ignored
  | comment
  | header (table : Table)
  | setting
  | variableDefinition
  | testCaseBegin
  | testCaseStep
  | keywordBegin
  | keywordStep
  | continuation
  deriving DecidableEq, Repr

namespace RowKind

/-- Whether rows of this kind call a keyword in their second cell. -/
def isKeywordCall : RowKind → Bool
  | testCaseBegin | testCaseStep | keywordBegin | keywordStep => true
  | _ => false

/-- The kind of a row of a table that is no header and not blank, where `named` tells whether its
first cell has text. -/
def ofTable (named : Bool) : Table → RowKind
  | .settings => setting
  | .variables => variableDefinition
  | .testCases => if named then testCaseBegin else testCaseStep
  | .keywords => if named then keywordBegin else keywordStep
  | .comments | .unknown => ignored

/-- The text of a header row: its cells a space apart. -/
def headerText (cells : List Cell) : Text := [' '].intercalate (cells.map Cell.value)

/-- The kind of a row, from the table that is open before it; and the table that is open after
it. -/
def classify (table : Option Table) (cells : List Cell) (remark : Option Cell) :
    RowKind × Option Table :=
  match cells with
  | [] => (if remark.isSome then comment else ignored, table)
  | first :: _ =>
    if first.value.head? = some '*' then
      let opened := Table.ofHeader (headerText cells)
      (header opened, some opened)
    else
      let content := cells.find? fun c => !c.isEmpty
      if content.isNone && remark.isSome then (comment, table)
      else match table with
        | none => (ignored, table)
        | some current =>
          if current = .comments ∨ current = .unknown then (ignored, table)
          else if content.any fun c => c.value == ['.', '.', '.'] then (continuation, table)
          else (ofTable (!first.isEmpty) current, table)

end RowKind

end KeywordCompletion
