import KeywordCompletion.LineView

/-!
# Documents

A document is a text open in an editor. It keeps the offsets at which its lines start, and is
changed by whole texts or by edits of a range. An edit whose range does not lie in the text is left
out; the edits after it still apply.
-/

namespace KeywordCompletion

/-- A stretch of a document as an editor gives it. -/
structure PositionRange where
  start : Position
  stop : Position
  deriving DecidableEq, Repr

/-- A change to a document: a new text for a range, or for all of it. -/
structure Change where
  range : Option PositionRange
  text : Text
  deriving DecidableEq, Repr

namespace Document

/-- The offsets at which the lines of a text start, from offset `start` on. -/
def lineStartsFrom (start : Nat) : Text → List Nat
  | t => (t.foldl (fun (offset, starts) c =>
      let next := offset + c.utf8Size
      (next, if c == '\n' then next :: starts else starts)) (start, [start])).2.reverse

def lineStartsOf (t : Text) : List Nat := lineStartsFrom 0 t

end Document

/-- A text open in an editor, with the version the editor gave it. -/
structure Document where
  text : Text
  version : Int
  lineStarts : List Nat
  lineStarts_eq : lineStarts = Document.lineStartsOf text

namespace Document

def ofText (t : Text) (version : Int) : Document := ⟨t, version, lineStartsOf t, rfl⟩

/-- The line of an offset is the last one that starts at or before it. A line ends before the line
feed, and before a carriage return that stands there. -/
instance : LineView Document where
  text := Document.text
  lineOfOffset? d offset :=
    if Text.size d.text < offset then none
    else match (d.lineStarts.takeWhile (· ≤ offset)).length with
      | 0 => none
      | n + 1 => some n
  lineSpan? d line :=
    d.lineStarts[line]?.map fun start =>
      let stop := match d.lineStarts[line + 1]? with
        | some next => next - 1
        | none => Text.size d.text
      let returns := (Text.slice? d.text start stop).any fun t => t.getLast? = some '\r'
      ⟨start, if returns then stop - 1 else stop⟩

/-- The number of lines. A text without line feeds is one line. -/
def lineCount (d : Document) : Nat := d.lineStarts.length

def splice? (t : Text) (span : Span) (replacement : Text) : Option Text :=
  if span.start ≤ span.stop then
    match Text.splitAt? t span.start, Text.drop? t span.stop with
    | some (before, _), some after => some (before ++ replacement ++ after)
    | _, _ => none
  else none

def spanOf? (d : Document) (range : PositionRange) : Option Span :=
  match LineView.offsetAt? d range.start, LineView.offsetAt? d range.stop with
  | some start, some stop => some ⟨start, stop⟩
  | _, _ => none

def changed (d : Document) (change : Change) : Text :=
  match change.range with
  | none => change.text
  | some range => ((d.spanOf? range).bind fun span => splice? d.text span change.text).getD d.text

/-- The document after a change, its version kept. -/
def applyChange (d : Document) (change : Change) : Document := ofText (d.changed change) d.version

/-- The document after changes, one after the other, under a new version. -/
def applyChanges (d : Document) (changes : List Change) (version : Int) : Document :=
  { changes.foldl applyChange d with version }

def setText (_ : Document) (t : Text) (version : Int) : Document := ofText t version

end Document

end KeywordCompletion
