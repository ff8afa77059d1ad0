import KeywordCompletion.Completion.Item
import KeywordCompletion.Proofs.Keyword.Names
import KeywordCompletion.Proofs.KeywordColumn

/-!
# The row of the cursor

Completion takes place in the row on which the cursor lies. The source of a document has a row for every
line of the document, so every position on a line has its row: `CursorAt.completeAt_eq`. What is proposed
there are names of keywords, for the keyword region of the row: `proposes_completeRow`.
-/

namespace KeywordCompletion

namespace Document

variable {d : Document} {n : Nat} {span : Span} {p : Position} {t : Text}

lemma exists_offsetAt?_iff : (∃ offset, LineView.offsetAt? d p = some offset) ↔ p.line.toNat < d.lineCount := by
  constructor
  · rintro ⟨offset, h⟩
    obtain ⟨span, _, _, hspan, -⟩ := exists_append_of_offsetAt? h
    exact (List.getElem?_eq_some_iff.1 (lineStarts_of_lineSpan? hspan).1).1
  · intro h
    have hspan : LineView.lineSpan? d p.line.toNat = some _ :=
      congrArg (Option.map _) (List.getElem?_eq_getElem h)
    obtain ⟨t, ht, -⟩ := d.followsLines.partitions.feed p.line.toNat _ hspan
    rw [LineView.lineText?, hspan, Option.bind_some] at ht
    exact ⟨_, by rw [LineView.offsetAt?, hspan, Option.bind_some, ht, Option.map_some]⟩

/-- The source of a document has a row for every line of the document. -/
lemma exists_row? (hspan : LineView.lineSpan? d n = some span) (hslice : LineView.slice? d span = some t) :
    ∃ row, (Source.ofText d.text).row? n = some row ∧ row.start = span.start ∧
      row.length = Text.size t ∧ LineView.lineText? (Source.ofText d.text) n = some t := by
  have hagrees := d.followsLines.agrees (Source.ofText d.text).followsLines rfl
  obtain ⟨row, hrow, rfl⟩ := Option.map_eq_some_iff.1 ((hagrees.lineSpan?_eq n).trans hspan)
  obtain ⟨-, -, -, -, hsize⟩ := Text.slice?_eq_some_iff.1 hslice
  refine ⟨row, hrow, rfl, Nat.add_left_cancel hsize.symm, ?_⟩
  rw [hagrees.lineText?_eq, LineView.lineText?, hspan, Option.bind_some, hslice]

end Document

namespace Completion

variable {ctx : CompletionContext} {f : FileId} {d : Document} {p : Position} {c : SourceCache}
  {n offset : Nat} {span : Span} {t : Text} {row : Row} {region : KeywordRegion}

lemma isKeywordCall_of_region (h : KeywordRegion.of? t row = some region) :
    row.kind.isKeywordCall = true := by
  rw [KeywordRegion.of?] at h
  split at h
  · assumption
  · cases h

lemma covers_of_contains {source : Source} {cursor : Nat} (hrow : source.row? n = some row)
    (ht : LineView.lineText? source n = some t) (hregion : KeywordRegion.of? t row = some region)
    (hcursor : region.contains cursor = true) :
    region.left = region.replaceStart ∧ region.Covers t row := by
  obtain ⟨t', region', ht', -, hregion', hleft, hcases⟩ :=
    KeywordRegion.exists_covers hrow (isKeywordCall_of_region hregion)
  obtain rfl := Option.some.inj (ht.symm.trans ht')
  obtain rfl := Option.some.inj (hregion.symm.trans hregion')
  rw [KeywordRegion.contains_iff] at hcursor
  rcases hcases with ⟨hlt, -⟩ | ⟨hcovers, -⟩
  · omega
  · exact ⟨hleft, hcovers⟩

lemma forall_searchInTurn {σ : Type} {search : KeywordFilter → σ → List Proposal × σ}
    {isEnough : List Proposal → Bool} {Valid : Proposal → Prop}
    (h : ∀ filter s, ∀ proposal ∈ (search filter s).1, Valid proposal)
    (plan : List (CompletionStage × KeywordFilter)) (s : σ) :
    ∀ proposal ∈ (searchInTurn search isEnough plan s).1.proposals, Valid proposal := by
  induction plan generalizing s with
  | nil => simp [searchInTurn, CompletionOutcome.empty]
  | cons entry more ih =>
    obtain ⟨stage, filter⟩ := entry
    simp only [searchInTurn]
    split
    · exact h filter s
    · exact ih _

/-- A proposal for a region of a row. -/
structure Proposes (row : Row) (region : KeywordRegion) (proposal : Proposal) : Prop where
  replaced : proposal.replaced = region.replaced row.start
  name : IsKeywordName proposal.name

lemma proposes_search (filter : KeywordFilter) (c : SourceCache) :
    ∀ proposal ∈ (search ctx f (region.replaced row.start) filter c).1, Proposes row region proposal := by
  intro proposal hmem
  obtain ⟨definition, hdefinition, rfl⟩ := List.mem_map.1 hmem
  exact ⟨rfl, isKeywordName_of_visible hdefinition⟩

/-- What is proposed in a row is for the region of the row, and the cursor is in that region. -/
lemma proposes_completeRow {cursor : Nat} {proposal : Proposal}
    (h : proposal ∈ (completeRow ctx f t row cursor c).1.proposals) :
    ∃ region, KeywordRegion.of? t row = some region ∧ region.contains cursor = true ∧
      Proposes row region proposal := by
  rw [completeRow] at h
  split at h
  · simp [CompletionOutcome.empty] at h
  · rename_i region hregion
    obtain ⟨hregion, hcursor⟩ := Option.filter_eq_some_iff.1 hregion
    exact ⟨region, hregion, hcursor, forall_searchInTurn proposes_search _ c proposal h⟩

lemma currentRow_eq {source : Source} (hline : LineView.lineOfOffset? d offset = some n)
    (hspan : LineView.lineSpan? d n = some span) (hslice : LineView.slice? d span = some t)
    (hrow : source.row? n = some row) (hstart : row.start = span.start) (hlength : row.length = Text.size t) :
    currentRow d source offset = .ok (t, row) := by
  rw [currentRow, hline]
  simp only [LineView.lineStart?, LineView.lineText?, hspan, Option.map_some, Option.bind_some, hslice, hrow]
  rw [if_pos ⟨hstart, hlength⟩]

/-- A position on a line of a document: what stands before it on the line and behind it, and the row of the
line. -/
structure CursorAt (d : Document) (p : Position) (span : Span) (before after : Text) (row : Row) : Prop where
  span_eq : LineView.lineSpan? d p.line.toNat = some span
  slice_eq : LineView.slice? d span = some (before ++ after)
  offset_eq : LineView.offsetAt? d p = some (span.start + Text.size before)
  row_eq : (Source.ofText d.text).row? p.line.toNat = some row
  start_eq : row.start = span.start
  length_eq : row.length = Text.size (before ++ after)
  text_eq : LineView.lineText? (Source.ofText d.text) p.line.toNat = some (before ++ after)

lemma exists_cursorAt (h : p.line.toNat < d.lineCount) :
    ∃ span before after row, CursorAt d p span before after row := by
  obtain ⟨offset, hoffset⟩ := Document.exists_offsetAt?_iff.2 h
  obtain ⟨span, before, after, hspan, hslice, rfl, -⟩ := Document.exists_append_of_offsetAt? hoffset
  obtain ⟨row, hrow, hstart, hlength, htext⟩ := Document.exists_row? hspan hslice
  exact ⟨span, before, after, row, hspan, hslice, hoffset, hrow, hstart, hlength, htext⟩

/-- The place behind a part of a line, where the row of the line is known. -/
lemma cursorAt_of_row? (d : Document) (line : UInt32) {pre before after post : Text}
    (hrow : (Source.ofText d.text).row? line.toNat = some row)
    (htext : d.text = pre ++ ((before ++ after) ++ post)) (hstart : row.start = Text.size pre)
    (hlength : row.length = Text.size (before ++ after)) (hunits : Text.units16 before < 2 ^ 32) :
    CursorAt d ⟨line, .ofNat (Text.units16 before)⟩ ⟨row.start, row.stop⟩ before after row := by
  have hagrees := d.followsLines.agrees (Source.ofText d.text).followsLines rfl
  have hspan : LineView.lineSpan? d line.toNat = some ⟨row.start, row.stop⟩ := by
    rw [← hagrees.lineSpan?_eq, LineView.lineSpan?]
    exact congrArg (Option.map _) hrow
  have hslice : LineView.slice? d ⟨row.start, row.stop⟩ = some (before ++ after) := by
    rw [Row.stop, hstart, hlength]
    change Text.slice? d.text _ _ = _
    rw [htext]
    exact Text.slice?_append pre (before ++ after) post
  refine ⟨hspan, hslice, ?_, hrow, rfl, hlength, ?_⟩
  · simp only [LineView.offsetAt?, hspan, Option.bind_some, hslice, Option.map_some,
      LineView.bytesBefore_append after hunits]
  · rw [hagrees.lineText?_eq, LineView.lineText?, hspan, Option.bind_some, hslice]

lemma snapshot_text (c : SourceCache) (f : FileId) (t : Text) : (snapshot c f t).1.text = t := by
  rw [snapshot]
  split
  · rename_i source hsource
    have hfilter := (Option.filter_eq_some_iff.1 hsource).2
    simpa using hfilter
  · rfl

/-- Completion at a position on a line is completion in the row of that line. -/
lemma CursorAt.completeAt_eq {before after : Text} (h : CursorAt d p span before after row)
    (ctx : CompletionContext) (f : FileId) (c : SourceCache) :
    completeAt ctx f d p c =
      let result := completeRow ctx f (before ++ after) row (Text.size before) (snapshot c f d.text).2
      (.ok result.1, result.2) := by
  have hsource : (snapshot c f d.text).1 = Source.ofText d.text :=
    Source.eq_of_text_eq (snapshot_text c f d.text)
  obtain ⟨-, -, -, -, hstop⟩ := Text.slice?_eq_some_iff.1 h.slice_eq
  have hline : LineView.lineOfOffset? d (span.start + Text.size before) = some p.line.toNat := by
    refine Document.lineOfOffset?_eq h.span_eq h.slice_eq (Nat.le_add_right _ _) ?_
    rw [Text.size_append] at hstop
    omega
  have hcurrent := currentRow_eq hline h.span_eq h.slice_eq h.row_eq h.start_eq h.length_eq
  have hcolumn : span.start + Text.size before - row.start = Text.size before := by
    rw [h.start_eq]
    omega
  simp only [completeAt, h.offset_eq, hsource, complete, hcurrent, hcolumn]

lemma completeAt_of_le (ctx : CompletionContext) (f : FileId) (c : SourceCache) (h : d.lineCount ≤ p.line.toNat) :
    completeAt ctx f d p c = (.error (.missingLine p.line.toNat), c) := by
  cases hoffset : LineView.offsetAt? d p with
  | none => rw [completeAt, hoffset]
  | some offset => exact absurd (Document.exists_offsetAt?_iff.1 ⟨offset, hoffset⟩) (Nat.not_lt_of_le h)

end Completion

end KeywordCompletion
