import KeywordCompletion.Keyword.Visible
import KeywordCompletion.Region

/-!
# Completion of keywords

Completion proposes the visible keywords for the keyword cell under the cursor. It compares them with
the whole cell first; if that gives nothing new, with the part of the cell before the cursor; and if
that gives nothing new either, it proposes all of them.
-/

namespace KeywordCompletion

/-- A search of the visible keywords. -/
inductive CompletionStage where
  /-- By the whole keyword cell. -/
  | fullInput
  /-- By the part of the keyword cell before the cursor. -/
  | typedSoFar
  /-- For every keyword. -/
  | showAll
  deriving DecidableEq, Repr

/-- A keyword that may be put in, what it replaces, and where it comes from. -/
structure Proposal where
  name : Text
  replaced : Span
  detail : Text
  deriving DecidableEq, Repr

/-- Proposals, and the searches that were made for them. -/
structure CompletionOutcome where
  proposals : List Proposal
  stages : List CompletionStage
  deriving DecidableEq, Repr

/-- Why there can be no completion. -/
inductive CompletionError where
  | offsetOutside (offset : Nat)
  /-- The rows do not describe the line of the cursor. -/
  | missingLine (line : Nat)
  | notOpen (file : FileId)
  deriving DecidableEq, Repr

namespace CompletionError

def message : CompletionError → Text
  | offsetOutside offset =>
    "offset ".toList ++ Nat.toDigits 10 offset ++ " is outside the document".toList
  | missingLine line => "no parsed line ".toList ++ Nat.toDigits 10 line
  | notOpen file => file.text ++ " is not open".toList

end CompletionError

/-- What completion depends on besides the text and the cache. -/
structure CompletionContext where
  environment : Environment
  scope : ImportScope
  mode : MatchMode

namespace CompletionOutcome

def empty : CompletionOutcome := ⟨[], []⟩

def finalStage? (o : CompletionOutcome) : Option CompletionStage := o.stages.getLast?

end CompletionOutcome

def Proposal.ofDefinition (replaced : Span) (d : KeywordDefinition) : Proposal :=
  ⟨d.name, replaced, d.origin.display⟩

namespace Completion

/-- The longest part at the start of a text that has at most `n` bytes. -/
def typedPart : Text → Nat → Text
  | [], _ => []
  | c :: t, n => if c.utf8Size ≤ n then c :: typedPart t (n - c.utf8Size) else []

/-- Whether proposals hold something new for a cell: they are not empty, and not only the keyword
that stands there already. -/
def isEnough (cell : Text) : List Proposal → Bool
  | [] => false
  | [only] => only.name != cell
  | _ => true

/-- The searches to be made, one after the other, until one gives something new. -/
def plan (mode : MatchMode) (row : Row) (region : KeywordRegion) (cursor : Nat) :
    List (CompletionStage × KeywordFilter) :=
  match row.cell? 1 with
  | none => [(.fullInput, .all)]
  | some keyword =>
    let typed := typedPart keyword.value (cursor - (keyword.start - row.start))
    let middle :=
      if region.strictlyContains cursor then
        [(CompletionStage.typedSoFar, KeywordFilter.ofTyped mode typed)]
      else []
    (.fullInput, .ofTyped mode keyword.value) :: middle ++ [(.showAll, .all)]

def search (ctx : CompletionContext) (f : FileId) (replaced : Span) (filter : KeywordFilter)
    (c : SourceCache) : List Proposal × SourceCache :=
  let (definitions, c) := visibleKeywords ctx.environment ctx.scope filter c f
  (definitions.map (Proposal.ofDefinition replaced), c)

/-- The outcome of the first of several searches that gives enough, or of the last one. -/
def searchInTurn {σ : Type} (search : KeywordFilter → σ → List Proposal × σ)
    (isEnough : List Proposal → Bool) :
    List (CompletionStage × KeywordFilter) → σ → CompletionOutcome × σ
  | [], c => (.empty, c)
  | (stage, filter) :: more, c =>
    let (proposals, c) := search filter c
    if more.isEmpty || isEnough proposals then (⟨proposals, [stage]⟩, c)
    else
      let (outcome, c) := searchInTurn search isEnough more c
      (⟨outcome.proposals, stage :: outcome.stages⟩, c)

/-- The line on which an offset lies with its text and its row, if the row has the place and the
length of the line. -/
def currentRow {α : Type} [LineView α] (view : α) (parsed : Source) (offset : Nat) :
    Except CompletionError (Text × Row) :=
  match LineView.lineOfOffset? view offset with
  | none => .error (.offsetOutside offset)
  | some line =>
    match LineView.lineStart? view line, LineView.lineText? view line, parsed.row? line with
    | some start, some t, some row =>
      if row.start = start ∧ row.length = Text.size t then .ok (t, row)
      else .error (.missingLine line)
    | _, _, _ => .error (.missingLine line)

/-- The outcome for a cursor in a row. Outside the keyword column nothing is searched. -/
def completeRow (ctx : CompletionContext) (f : FileId) (t : Text) (row : Row) (cursor : Nat)
    (c : SourceCache) : CompletionOutcome × SourceCache :=
  match (KeywordRegion.of? t row).filter (·.contains cursor) with
  | none => (.empty, c)
  | some region =>
    let cell := ((row.cell? 1).map Cell.value).getD []
    searchInTurn (search ctx f (region.replaced row.start)) (isEnough cell)
      (plan ctx.mode row region cursor) c

/-- Completion at an offset in a file, where `view` is the text that is edited and `parsed` its rows;
and the cache after it. -/
def complete {α : Type} [LineView α] (ctx : CompletionContext) (f : FileId) (view : α)
    (parsed : Source) (offset : Nat) (c : SourceCache) :
    Except CompletionError CompletionOutcome × SourceCache :=
  match currentRow view parsed offset with
  | .error error => (.error error, c)
  | .ok (t, row) =>
    let (outcome, c) := completeRow ctx f t row (offset - row.start) c
    (.ok outcome, c)

end Completion

end KeywordCompletion
