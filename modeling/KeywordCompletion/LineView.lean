import KeywordCompletion.Span
import KeywordCompletion.Text.Basic

/-!
# Views of a text by lines

What completion and editing ask of a text: on which line an offset lies, and where a line starts
and ends. A position as an editor gives it, a line and a column in units of UTF-16, is turned into
an offset and back through such a view alone.
-/

namespace KeywordCompletion

/-- A text that is read line by line. -/
class LineView (α : Type) where
  /-- The whole text. -/
  text : α → Text
  /-- The line on which an offset lies, if it lies in the text. -/
  lineOfOffset? : α → Nat → Option Nat
  /-- Where a line starts and where it ends, its terminator left out. -/
  lineSpan? : α → Nat → Option Span

/-- A place in a text as an editor gives it: lines and columns count from zero, columns in units of
UTF-16. Both are numbers of 32 bits. -/
structure Position where
  line : UInt32
  character : UInt32
  deriving DecidableEq, Repr

namespace LineView

variable {α : Type} [LineView α]

/-- The text in a span, when both its ends fall between characters. -/
def slice? (view : α) (span : Span) : Option Text :=
  Text.slice? (text view) span.start span.stop

def lineStart? (view : α) (line : Nat) : Option Nat := (lineSpan? view line).map Span.start

/-- The text of a line without its terminator. -/
def lineText? (view : α) (line : Nat) : Option Text := (lineSpan? view line).bind (slice? view)

/-- The number of bytes before the first character boundary of a line at which the units of UTF-16
that are behind, counted from `units` on, reach `column`, or before the end of the line. The count
has 32 bits and wraps around. -/
def bytesBefore (column : UInt32) : UInt32 → Text → Nat
  | _, [] => 0
  | units, c :: t =>
    if column ≤ units then 0
    else c.utf8Size + bytesBefore column (units + if c.val ≤ 0xFFFF then 1 else 2) t

/-- The offset of a position. Columns past the end of the line stand for that end, and a column in
the middle of a character for the end of the character. -/
def offsetAt? (view : α) (p : Position) : Option Nat :=
  (lineSpan? view p.line.toNat).bind fun span =>
    (slice? view span).map fun line => span.start + bytesBefore p.character 0 line

/-- The position of an offset. Offsets within a line terminator stand for the end of the line. Of the
line and the column the lowest 32 bits are kept. -/
def positionAt? (view : α) (offset : Nat) : Option Position :=
  (lineOfOffset? view offset).bind fun line =>
    (lineSpan? view line).bind fun span =>
      let stop := min (max offset span.start) span.stop
      (slice? view ⟨span.start, stop⟩).map fun before =>
        ⟨.ofNat line, .ofNat (Text.units16 before)⟩

end LineView

end KeywordCompletion
