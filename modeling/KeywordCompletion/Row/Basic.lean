import KeywordCompletion.Row.Kind

/-!
# Rows

The rows of a text are its lines, each with its cells, its comment and its kind. A line ends at a
line feed; a carriage return before it belongs to neither line.
-/

namespace KeywordCompletion

/-- A line of a text: where it starts, its length in bytes and what stands in it. -/
structure Row where
  start : Nat
  length : Nat
  cells : List Cell
  comment : Option Cell
  kind : RowKind
  deriving DecidableEq, Repr

namespace Row

/-- The byte at which a row ends, its line terminator left out. -/
def stop (r : Row) : Nat := r.start + r.length

/-- The cell in a column, counted from zero. -/
def cell? (r : Row) (column : Nat) : Option Cell := r.cells[column]?

def firstContent? (r : Row) : Option Cell := r.cells.find? fun c => !c.isEmpty

/-- The lines of a text with the carriage returns at their ends. -/
def lines (t : Text) : List Text := cut (· == '\n') t

def chomp (line : Text) : Text :=
  if line.getLast? = some '\r' then line.dropLast else line

/-- The row that a line holds when it starts at byte `start` below the given table, and the table
that is open after it. -/
def read (table : Option Table) (start : Nat) (line : Text) : Row × Option Table :=
  let (cells, comment) := splitCells line start
  let (kind, table) := RowKind.classify table cells comment
  (⟨start, Text.size line, cells, comment, kind⟩, table)

/-- The rows of lines of which the first starts at byte `start` below the given table. -/
def readAll (table : Option Table) (start : Nat) : List Text → List Row
  | [] => []
  | line :: more =>
    let (row, table) := read table start (chomp line)
    row :: readAll table (start + Text.size line + 1) more

def parse (t : Text) : List Row := readAll none 0 (lines t)

end Row

end KeywordCompletion
