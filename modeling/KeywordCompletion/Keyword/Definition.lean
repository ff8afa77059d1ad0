import KeywordCompletion.FileId
import KeywordCompletion.Keyword.Library
import KeywordCompletion.Source

/-!
# Definitions of keywords

A keyword is defined by a row of a source or by a library. Two definitions of one name are told
apart by where they come from.
-/

namespace KeywordCompletion

/-- Where a keyword is defined. -/
inductive KeywordOrigin where
  | file (id : FileId)
  | library (name : Text)
  deriving DecidableEq, Repr

/-- The origin as it is shown beside a keyword: a file without its directories, or a library. -/
def KeywordOrigin.display : KeywordOrigin → Text
  | file id => id.shortName
  | library name => name

/-- A keyword, where it is defined, and the line that defines it, counted from zero, if a source
does. -/
structure KeywordDefinition where
  name : Text
  origin : KeywordOrigin
  line : Option Nat
  deriving DecidableEq, Repr

namespace KeywordDefinition

/-- The definition in the row with an index: a row that begins a keyword defines the name in its
first cell. -/
def ofRow? (id : FileId) (row : Row) (line : Nat) : Option KeywordDefinition :=
  if row.kind = .keywordBegin then
    match row.cell? 0 with
    | some cell => if cell.isEmpty then none else some ⟨cell.value, .file id, some line⟩
    | none => none
  else none

/-- The definitions in a source, in the order of its rows. -/
def ofSource (id : FileId) (s : Source) : List KeywordDefinition :=
  s.rows.zipIdx.filterMap fun (row, line) => ofRow? id row line

/-- The definitions in a library, if it is known. -/
def ofLibrary (name : Text) : List KeywordDefinition :=
  ((Library.keywords? name).getD []).map fun keyword => ⟨keyword.toList, .library name, none⟩

end KeywordDefinition

end KeywordCompletion
