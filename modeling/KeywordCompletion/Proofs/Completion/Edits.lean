import KeywordCompletion.Proofs.Changes
import KeywordCompletion.Proofs.Completion.Items

/-!
# Accepting a completion

The edit of a completion item writes the name of a keyword into the keyword cell of the row of the
cursor. Read again, the text has this keyword in that cell, and everything else stands where it stood:
`parse_applyChanges_edit`.
-/

namespace KeywordCompletion

namespace Completion

variable {ctx : CompletionContext} {enabled : Bool} {f : FileId} {d : Document} {p : Position}
  {c : SourceCache} {item : CompletionItem}

/-- Where an item comes from: the line of the cursor with its row, the region of the row, and a proposal
for that region. -/
structure Origin (d : Document) (p : Position) (item : CompletionItem) (span : Span) (t : Text) (row : Row)
    (region : KeywordRegion) (proposal : Proposal) : Prop where
  span_eq : LineView.lineSpan? d p.line.toNat = some span
  text_eq : LineView.slice? d span = some t
  row_eq : (Row.parse d.text)[p.line.toNat]? = some row
  start_eq : row.start = span.start
  length_eq : row.length = Text.size t
  region_eq : KeywordRegion.of? t row = some region
  cursor : ∃ cursor, region.contains cursor = true
  proposes : Proposes row region proposal
  item_eq : ∃ index, CompletionItem.ofProposal? d proposal index = some item

lemma exists_origin (h : item ∈ (items ctx enabled f (some d) p c).1) :
    ∃ span t row region proposal, Origin d p item span t row region proposal := by
  simp only [items] at h
  split at h
  · by_cases hline : p.line.toNat < d.lineCount
    · obtain ⟨span, before, after, row, hcursor⟩ := exists_cursorAt hline
      rw [hcursor.completeAt_eq] at h
      obtain ⟨⟨proposal, index⟩, hmem, hitem⟩ := List.mem_filterMap.1 h
      obtain ⟨region, hregion, hcontains, hproposes⟩ :=
        proposes_completeRow (List.fst_mem_of_mem_zipIdx hmem)
      exact ⟨span, _, row, region, proposal, hcursor.span_eq, hcursor.slice_eq, hcursor.row_eq,
        hcursor.start_eq, hcursor.length_eq, hregion, ⟨_, hcontains⟩, hproposes, index, hitem⟩
    · rw [completeAt_of_le ctx f c (Nat.le_of_not_lt hline)] at h
      cases h
  · cases h

lemma changed_edit {n index : Nat} {span : Span} {proposal : Proposal} {pre post before old after : Text}
    (hspan : LineView.lineSpan? d n = some span) (hline : n < 2 ^ 32)
    (hslice : LineView.slice? d span = some (before ++ (old ++ after)))
    (hunits : Text.units16 (before ++ (old ++ after)) < 2 ^ 32)
    (hitem : CompletionItem.ofProposal? d proposal index = some item)
    (hreplaced : proposal.replaced =
      ⟨span.start + Text.size before, span.start + Text.size before + Text.size old⟩)
    (htext : d.text = pre ++ (before ++ (old ++ (after ++ post)))) (hpre : Text.size pre = span.start) :
    item.name = proposal.name ∧
      d.changed item.edit = pre ++ (before ++ (proposal.name ++ (after ++ post))) := by
  simp only [Text.units16_append] at hunits
  obtain ⟨start, hstart, hstart'⟩ := Document.offsetAt?_positionAt? hspan hslice hline (by omega)
  have hslice' : LineView.slice? d span = some ((before ++ old) ++ after) := by
    rw [hslice, List.append_assoc]
  obtain ⟨stop, hstop, hstop'⟩ := Document.offsetAt?_positionAt? hspan hslice' hline
    (by rw [Text.units16_append]; omega)
  rw [Text.size_append, ← Nat.add_assoc] at hstop hstop'
  rw [CompletionItem.ofProposal?, hreplaced] at hitem
  simp only [hstart, hstop, Option.some.injEq] at hitem
  subst hitem
  have hwhole : d.text = (pre ++ before) ++ (old ++ (after ++ post)) := by
    rw [htext, List.append_assoc]
  have hspanOf : d.spanOf? ⟨start, stop⟩ =
      some ⟨Text.size (pre ++ before), Text.size (pre ++ before) + Text.size old⟩ := by
    rw [Document.spanOf?]
    simp only [hstart', hstop', Text.size_append, hpre]
  refine ⟨rfl, ?_⟩
  rw [Document.changed]
  simp only [CompletionItem.edit, hspanOf, Option.bind_some]
  rw [hwhole, Document.splice?_append, Option.getD_some, List.append_assoc]

/-- The row of the cursor stands where the line of the cursor is. -/
lemma eq_of_place {span : Span} {n : Nat} {row : Row} {table : Option Table} {pre body ending post t : Text}
    (hplace : Row.Place d.text n row table pre body ending post)
    (hslice : LineView.slice? d span = some t) (hstart : row.start = span.start)
    (hlength : row.length = Text.size t) : Text.size pre = span.start ∧ body = t := by
  have hpre : Text.size pre = span.start := by
    rw [← hstart, hplace.row_eq]
    rfl
  have hsize : Text.size body = Text.size t := by
    rw [← hlength, hplace.row_eq]
    rfl
  obtain ⟨pre', post', htext, hpre', -⟩ := Text.slice?_eq_some_iff.1 hslice
  have hwhole : pre ++ (body ++ (ending ++ post)) = pre' ++ (t ++ post') :=
    hplace.text_eq.symm.trans htext
  obtain ⟨-, hrest⟩ := Text.append_inj_of_size hwhole (hpre.trans hpre'.symm)
  exact ⟨hpre, (Text.append_inj_of_size hrest hsize).1⟩

/-- The line with the keyword has no carriage return at its end that was not there before. -/
lemma endsLine_of_keyword {before keyword old after ending : Text} (hne : keyword ≠ [])
    (hreturn : '\r' ∉ keyword) (h : Row.EndsLine (before ++ (old ++ after)) ending) :
    Row.EndsLine (before ++ (keyword ++ after)) ending := by
  refine h.imp_left fun ⟨hending, hold⟩ => ⟨hending, ?_⟩
  obtain ⟨last, hlast⟩ : ∃ last, keyword.getLast? = some last := ⟨_, List.getLast?_eq_some_getLast hne⟩
  have hmem := List.mem_of_getLast? hlast
  rw [List.getLast?_append, List.getLast?_append] at hold ⊢
  cases hafter : after.getLast? with
  | some c => simpa [hafter] using hold
  | none =>
    rw [hlast]
    simp only [Option.none_or, Option.some_or, ne_eq, Option.some.injEq]
    rintro rfl
    exact hreturn hmem

/-- On a line whose columns are numbers of 32 bits, accepting a completion writes the chosen keyword into the
keyword cell and changes nothing else. The text keeps all lines but the one of the cursor, and what stands in their
rows. The row of the cursor keeps its kind, its name, its comment and its cells behind the keyword, and its second
cell is the keyword. -/
theorem parse_applyChanges_edit (ctx : CompletionContext) (enabled : Bool) (f : FileId) (d : Document)
    (p : Position) (c : SourceCache) (version : Int) {item : CompletionItem} {row : Row} {name : Cell}
    {t : Text} (hitem : item ∈ (items ctx enabled f (some d) p c).1)
    (hrow : (Row.parse d.text)[p.line.toNat]? = some row) (hname : row.cell? 0 = some name)
    (ht : LineView.lineText? d p.line.toNat = some t) (hunits : Text.units16 t < 2 ^ 32)
    (hsep : (separatorAt t (name.stop - row.start)).isSome = true) (hreturn : '\r' ∉ item.name)
    (hlone : ∀ x ∈ (Token.lex item.name).getLast?, x.text ≠ ['\\']) :
    let d' := d.applyChanges [item.edit] version
    Row.SameElsewhere d.text d'.text p.line.toNat ∧
      ∃ row', (Row.parse d'.text)[p.line.toNat]? = some row' ∧ row.WithKeyword item.name row' := by
  intro d'
  obtain ⟨span, u, row', region, proposal, h⟩ := exists_origin hitem
  obtain ⟨index, hindex⟩ := h.item_eq
  obtain ⟨cursor, hcursor⟩ := h.cursor
  obtain rfl : row = row' := Option.some.inj (hrow.symm.trans h.row_eq)
  obtain rfl : u = t := by
    rw [LineView.lineText?, h.span_eq, Option.bind_some, h.text_eq] at ht
    exact Option.some.inj ht
  obtain ⟨table, pre, body, ending, post, hplace⟩ := Row.exists_place hrow
  obtain ⟨hpre, rfl⟩ := eq_of_place hplace h.text_eq h.start_eq h.length_eq
  have hstart : row.start = Text.size pre := h.start_eq.trans hpre.symm
  have hsplit : splitCells body row.start = (row.cells, row.comment) := by
    rw [hstart, hplace.row_eq]
    rfl
  obtain ⟨left, old, right, hbody, hfrom, hto, hframes⟩ :=
    KeywordRegion.exists_frames hsplit h.region_eq hcursor hname hsep
  have hreplaced : proposal.replaced =
      ⟨span.start + Text.size left, span.start + Text.size left + Text.size old⟩ := by
    rw [h.proposes.replaced, KeywordRegion.replaced, hfrom, hto, h.start_eq, Nat.add_assoc]
  have hslice : LineView.slice? d span = some (left ++ (old ++ right)) := by rw [h.text_eq, hbody]
  have htext : d.text = pre ++ (left ++ (old ++ (right ++ (ending ++ post)))) := by
    rw [hplace.text_eq, hbody]
    simp only [List.append_assoc]
  rw [hbody] at hunits
  obtain ⟨hnamed, hchanged⟩ :=
    changed_edit h.span_eq p.line.toNat_lt hslice hunits hindex hreplaced htext hpre
  have hkeyword : IsKeywordName item.name := by
    rw [hnamed]
    exact h.proposes.name
  obtain ⟨cells, comment, hsplit', hcells, hcomment⟩ := hframes item.name hkeyword.fillsCell hlone
  have hcalls := isKeywordCall_of_region h.region_eq
  rw [hstart] at hsplit'
  rw [hplace.row_eq] at hcalls hname hcells hcomment
  obtain ⟨htable, hwith⟩ := Row.read_of_keyword hcalls hname hsplit' hcells hcomment
    hkeyword.fillsCell.ne_nil hkeyword.dots
  have hfeed : '\n' ∉ left ++ (item.name ++ right) := by
    have hbody' := hplace.feed
    rw [hbody] at hbody'
    simp only [List.mem_append, not_or] at hbody' ⊢
    exact ⟨hbody'.1, hkeyword.feed, hbody'.2.2⟩
  have hends : Row.EndsLine (left ++ (item.name ++ right)) ending := by
    have hold := hplace.ends
    rw [hbody] at hold
    exact endsLine_of_keyword hkeyword.fillsCell.ne_nil hreturn hold
  obtain ⟨hsame, hread⟩ := hplace.replaced _ hfeed hends htable
  have htext' : d'.text = pre ++ (left ++ (item.name ++ right) ++ (ending ++ post)) := by
    have happly : d'.text = d.changed item.edit := rfl
    rw [happly, hchanged, ← hnamed]
    simp only [List.append_assoc]
  rw [← htext'] at hsame hread
  rw [hplace.row_eq]
  exact ⟨hsame, _, hread, hwith⟩

private def stepText : Text := "*** Keywords ***\r\nOne\r\n  Tw  x  # n\r\nTwo".toList

private def emptyContext : CompletionContext := ⟨⟨⟨[([], .directory)]⟩, []⟩, ⟨[], false⟩, .anywhere⟩

/-- The keyword `Two` is put in for `Tw`, between an empty name and an argument with a comment. -/
theorem parse_applyChanges_edit_two :
    let d := Document.ofText stepText 1
    let item : CompletionItem := ⟨"Two".toList, "m.robot".toList, "0000".toList, ⟨⟨2, 2⟩, ⟨2, 4⟩⟩⟩
    item ∈ (items emptyContext true ⟨"/w/m.robot".toList⟩ (some d) ⟨2, 4⟩ SourceCache.empty).1 ∧
      ∃ row', (Row.parse (d.applyChanges [item.edit] 2).text)[2]? = some row' ∧
        row'.kind = .keywordStep ∧ (row'.cell? 1).map Cell.value = some "Two".toList ∧
        (row'.cells.drop 2).map Cell.value = [['x']] := by
  intro d item
  have hitem : item ∈
      (items emptyContext true ⟨"/w/m.robot".toList⟩ (some d) ⟨2, 4⟩ SourceCache.empty).1 := by
    decide +kernel
  let row : Row := ⟨23, 12, [⟨[], 23, 23⟩, ⟨"Tw".toList, 25, 27⟩, ⟨['x'], 29, 30⟩],
    some ⟨"# n".toList, 32, 35⟩, .keywordStep⟩
  have hrow : (Row.parse d.text)[2]? = some row := by decide +kernel
  have ht : LineView.lineText? d 2 = some "  Tw  x  # n".toList := by decide +kernel
  obtain ⟨-, row', hrow', hwith⟩ := parse_applyChanges_edit emptyContext true
    ⟨"/w/m.robot".toList⟩ d ⟨2, 4⟩ SourceCache.empty 2 hitem hrow rfl ht (by decide) (by decide +kernel)
    (by decide) (by decide +kernel)
  exact ⟨hitem, row', hrow', hwith.kind, hwith.keyword, hwith.arguments⟩

/-- Where the column of the end of the row wraps around to the first one, the edit ends before it starts and
changes nothing. -/
lemma text_applyChanges_padded {count : Nat} (h : 2 ≤ count) (hwrap : UInt32.ofNat (4 + count) = 1)
    {item : CompletionItem} (hrange : item.range = ⟨⟨2, 2⟩, ⟨2, .ofNat (4 + count)⟩⟩) (version : Int) :
    ((Document.ofText (paddedText count) 1).applyChanges [item.edit] version).text =
      (Document.ofText (paddedText count) 1).text := by
  have hstart := (cursorAt_padded h "  ".toList rfl (by decide)).offset_eq
  have hstop := (cursorAt_padded h " ".toList rfl (by decide)).offset_eq
  have hspan : (Document.ofText (paddedText count) 1).spanOf? item.range = some ⟨23, 22⟩ := by
    rw [hrange, hwrap]
    exact Document.spanOf?_eq_some_iff.2 ⟨hstart, hstop⟩
  exact Document.changed_of_lt hspan (by decide)

lemma lineText?_padded {count : Nat} (h : 2 ≤ count) : LineView.lineText? (Document.ofText (paddedText count) 1) 2 =
    some ("  Tw".toList ++ List.replicate count ' ') := by
  have hcursor := cursorAt_padded h "  Tw".toList rfl (by decide)
  have hspan : LineView.lineSpan? (Document.ofText (paddedText count) 1) 2 = _ := hcursor.span_eq
  rw [LineView.lineText?, hspan, Option.bind_some, hcursor.slice_eq]

lemma separatorAt_padded (count : Nat) : (separatorAt ("  Tw".toList ++ List.replicate count ' ')
    ((⟨[], 21, 21⟩ : Cell).stop - (paddedRow count).start)).isSome = true := rfl

lemma cell?_paddedRow (count : Nat) : (paddedRow count).cell? 0 = some ⟨[], 21, 21⟩ := rfl

lemma not_withKeyword_paddedRow (count : Nat) : ¬ (paddedRow count).WithKeyword "Two".toList (paddedRow count) := by
  intro h
  exact absurd h.keyword (by simp [paddedRow, Row.cell?])

/-- On a row of 2 ^ 32 + 1 characters, with a name that is followed by a separator, the keyword is not written. -/
theorem not_withKeyword_of_long_row :
    let d := Document.ofText (paddedText (2 ^ 32 - 3)) 1
    ∃ item ∈ (items emptyContext true ⟨"/w/m.robot".toList⟩ (some d) ⟨2, 4⟩ SourceCache.empty).1,
      ∃ row name t, (Row.parse d.text)[2]? = some row ∧ row.cell? 0 = some name ∧
        LineView.lineText? d 2 = some t ∧ (separatorAt t (name.stop - row.start)).isSome = true ∧
        '\r' ∉ item.name ∧ (∀ x ∈ (Token.lex item.name).getLast?, x.text ≠ ['\\']) ∧
        (d.applyChanges [item.edit] 2).text = d.text ∧
        ¬ ∃ row', (Row.parse (d.applyChanges [item.edit] 2).text)[2]? = some row' ∧
          row.WithKeyword item.name row' := by
  intro d
  have hwrap : UInt32.ofNat (4 + (2 ^ 32 - 3)) = 1 := rfl
  have h : 2 ≤ 2 ^ 32 - 3 := by decide
  obtain ⟨-, item, hmem, hname, hrange⟩ := exists_item_padded emptyContext ⟨"/w/m.robot".toList⟩ h
  have hkept : (d.applyChanges [item.edit] 2).text = d.text := text_applyChanges_padded h hwrap hrange 2
  have hrow : (Row.parse d.text)[2]? = some (paddedRow (2 ^ 32 - 3)) := row_padded h
  refine ⟨item, hmem, paddedRow (2 ^ 32 - 3), ⟨[], 21, 21⟩, "  Tw".toList ++ List.replicate (2 ^ 32 - 3) ' ', hrow,
    cell?_paddedRow _, lineText?_padded h, separatorAt_padded _, ?_, ?_, hkept, ?_⟩
  · rw [hname]
    decide
  · rw [hname]
    decide +kernel
  · rintro ⟨row', hrow', hwith⟩
    rw [hkept, hrow] at hrow'
    obtain rfl := Option.some.inj hrow'
    rw [hname] at hwith
    exact not_withKeyword_paddedRow _ hwith

end Completion

end KeywordCompletion
