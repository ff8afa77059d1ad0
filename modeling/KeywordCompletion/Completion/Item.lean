import KeywordCompletion.Completion.Basic
import KeywordCompletion.Document
import KeywordCompletion.Json.Basic
import KeywordCompletion.Settings.Basic

/-!
# Completion items

A completion item is a proposal as an editor gets it, with positions for offsets. Items are sorted by
a key that keeps their order.
-/

namespace KeywordCompletion

/-- A proposal as an editor gets it. -/
structure CompletionItem where
  name : Text
  detail : Text
  sortKey : Text
  range : PositionRange
  deriving DecidableEq, Repr

def Position.toJson (p : Position) : Json :=
  .obj [("line", .ofNat p.line.toNat), ("character", .ofNat p.character.toNat)]

def PositionRange.toJson (r : PositionRange) : Json :=
  .obj [("start", r.start.toJson), ("end", r.stop.toJson)]

namespace CompletionItem

/-- The number of digits of a key, if it has no more. -/
def keyDigits : Nat := 4

def keyOf (index : Nat) : Text :=
  let digits := Nat.toDigits 10 index
  List.replicate (keyDigits - digits.length) '0' ++ digits

def functionKind : Nat := 3

/-- The item of a proposal with an index, if what it replaces has positions. -/
def ofProposal? (d : Document) (p : Proposal) (index : Nat) : Option CompletionItem :=
  match LineView.positionAt? d p.replaced.start, LineView.positionAt? d p.replaced.stop with
  | some start, some stop => some ⟨p.name, p.detail, keyOf index, ⟨start, stop⟩⟩
  | _, _ => none

def ofProposals (d : Document) (proposals : List Proposal) : List CompletionItem :=
  proposals.zipIdx.filterMap fun (p, index) => ofProposal? d p index

def edit (item : CompletionItem) : Change := ⟨some item.range, item.name⟩

def toJson (item : CompletionItem) : Json :=
  .obj [
    ("label", .str item.name), ("kind", .ofNat functionKind), ("detail", .str item.detail),
    ("sortText", .str item.sortKey), ("filterText", .str item.name),
    ("textEdit", .obj [("range", item.range.toJson), ("newText", .str item.name)])]

end CompletionItem

namespace Completion

/-- The source of a file with a text, from the cache if it has it, and the cache after that. -/
def snapshot (c : SourceCache) (f : FileId) (t : Text) : Source × SourceCache :=
  match (c.get? f).filter fun source => source.text = t with
  | some source => (source, c)
  | none => (Source.ofText t, c.update f t)

/-- Completion at a position in an open document, and the cache after it. -/
def completeAt (ctx : CompletionContext) (f : FileId) (d : Document) (p : Position)
    (c : SourceCache) : Except CompletionError CompletionOutcome × SourceCache :=
  match LineView.offsetAt? d p with
  | none => (.error (.missingLine p.line.toNat), c)
  | some offset =>
    let (source, c) := snapshot c f d.text
    complete ctx f d source offset c

/-- The items for a position in a document, and the cache after it. Where completion is disabled,
the document is not open or completion fails, there are none. -/
def items (ctx : CompletionContext) (enabled : Bool) (f : FileId) (d : Option Document)
    (p : Position) (c : SourceCache) : List CompletionItem × SourceCache :=
  match d with
  | some d =>
    if enabled then
      match completeAt ctx f d p c with
      | (.ok outcome, c) => (CompletionItem.ofProposals d outcome.proposals, c)
      | (.error _, c) => ([], c)
    else ([], c)
  | none => ([], c)

end Completion

end KeywordCompletion
