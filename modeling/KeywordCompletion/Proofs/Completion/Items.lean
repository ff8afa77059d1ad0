import KeywordCompletion.Proofs.Completion.Stages
import KeywordCompletion.Proofs.SourceCache.Buffers

/-!
# Completion items

Completion fails only for a position below the last line. Everywhere else every proposal becomes an item,
and what the item replaces stands on the line of the cursor; if the line is addressable, then it stands around
the cursor: `items_of_completeAt`.
-/

namespace KeywordCompletion

/-- An item that puts the name of a proposal in for what the proposal replaces, on the line of a position and,
if that line is addressable, around the place that the position stands for. -/
structure CompletionItem.Shows (d : Document) (p : Position) (proposal : Proposal) (item : CompletionItem) :
    Prop where
  name : item.name = proposal.name
  detail : item.detail = proposal.detail
  start : LineView.positionAt? d proposal.replaced.start = some item.range.start
  stop : LineView.positionAt? d proposal.replaced.stop = some item.range.stop
  line : item.range.start.line = p.line ∧ item.range.stop.line = p.line
  cursor : ∃ cursor, (LineView.offsetAt? d p).bind (LineView.positionAt? d) = some cursor ∧
    cursor.line = p.line ∧ (LineView.IsAddressable d p.line.toNat →
      item.range.start.character ≤ cursor.character ∧ cursor.character ≤ item.range.stop.character)

lemma CompletionItem.forall₂_ofProposals {d : Document} {R : Proposal → CompletionItem → Prop}
    {proposals : List Proposal}
    (h : ∀ proposal ∈ proposals, ∀ index, ∃ item, ofProposal? d proposal index = some item ∧ R proposal item) :
    List.Forall₂ R proposals (ofProposals d proposals) := by
  rw [ofProposals]
  generalize 0 = first
  induction proposals generalizing first with
  | nil => exact .nil
  | cons proposal proposals ih =>
    rw [List.forall_mem_cons] at h
    obtain ⟨item, hitem, hR⟩ := h.1 first
    simp only [List.zipIdx_cons, List.filterMap_cons, hitem]
    exact .cons hR (ih h.2 (first + 1))

namespace Completion

open Token

variable {d : Document} {p : Position} {n : Nat} {span : Span} {t : Text} {row : Row}

lemma exists_positionAt? {column : Nat} (hspan : LineView.lineSpan? d n = some span)
    (hslice : LineView.slice? d span = some t) (h : Text.isBoundary t column = true) :
    ∃ a b, t = a ++ b ∧ Text.size a = column ∧
      LineView.positionAt? d (span.start + column) = some ⟨.ofNat n, .ofNat (Text.units16 a)⟩ := by
  obtain ⟨b, hb⟩ := Option.isSome_iff_exists.1 h
  obtain ⟨a, rfl, rfl⟩ := Text.exists_append_of_drop? hb
  exact ⟨a, b, rfl, rfl, Document.positionAt?_eq hspan hslice⟩

/-- A proposal for a region that covers its column and has the cursor in it becomes an item around the
cursor. -/
lemma CursorAt.exists_shows {before after : Text} {region : KeywordRegion} {proposal : Proposal}
    (h : CursorAt d p span before after row) (hleft : region.left = region.replaceStart)
    (hcovers : region.Covers (before ++ after) row) (hcontains : region.contains (Text.size before) = true)
    (hreplaced : proposal.replaced = region.replaced row.start) (index : Nat) :
    ∃ item, CompletionItem.ofProposal? d proposal index = some item ∧
      CompletionItem.Shows d p proposal item := by
  obtain ⟨left, left', hleft', hsize, hstart⟩ :=
    exists_positionAt? h.span_eq h.slice_eq hcovers.boundaries.1
  obtain ⟨right, right', hright', hsize', hstop⟩ :=
    exists_positionAt? h.span_eq h.slice_eq hcovers.boundaries.2
  rw [hleft, ← h.start_eq, UInt32.ofNat_toNat] at hstart
  rw [← h.start_eq, UInt32.ofNat_toNat] at hstop
  have hcursor := Document.positionAt?_eq h.span_eq h.slice_eq
  rw [UInt32.ofNat_toNat] at hcursor
  have hstart' : LineView.positionAt? d proposal.replaced.start =
      some ⟨p.line, .ofNat (Text.units16 left)⟩ := by
    rw [hreplaced]
    exact hstart
  have hstop' : LineView.positionAt? d proposal.replaced.stop =
      some ⟨p.line, .ofNat (Text.units16 right)⟩ := by
    rw [hreplaced]
    exact hstop
  have hitem : CompletionItem.ofProposal? d proposal index = some ⟨proposal.name, proposal.detail,
      CompletionItem.keyOf index,
      ⟨⟨p.line, .ofNat (Text.units16 left)⟩, ⟨p.line, .ofNat (Text.units16 right)⟩⟩⟩ := by
    simp only [CompletionItem.ofProposal?, hstart', hstop']
  rw [KeywordRegion.contains_iff] at hcontains
  refine ⟨_, hitem, rfl, rfl, hstart', hstop', ⟨rfl, rfl⟩, ⟨p.line, .ofNat (Text.units16 before)⟩, ?_, rfl,
    fun haddress => ?_⟩
  · rw [h.offset_eq, Option.bind_some]
    exact hcursor
  · have htext : LineView.lineText? d p.line.toNat = some (before ++ after) := by
      rw [LineView.lineText?, h.span_eq, Option.bind_some, h.slice_eq]
    have hunits := (haddress _ htext).2
    have hbefore : Text.units16 before < 2 ^ 32 := by
      rw [Text.units16_append] at hunits
      omega
    have hright'' : Text.units16 right < 2 ^ 32 := by
      rw [hright', Text.units16_append] at hunits
      omega
    have hle := Text.units16_le_of_size_le hleft'.symm (by omega)
    have hle' := Text.units16_le_of_size_le hright' (by omega)
    exact ⟨(UInt32.ofNat_le_iff_le (Nat.lt_of_le_of_lt hle hbefore) hbefore).2 hle,
      (UInt32.ofNat_le_iff_le hbefore hright'').2 hle'⟩

lemma CursorAt.forall₂_ofProposals {before after : Text} (h : CursorAt d p span before after row)
    (ctx : CompletionContext) (f : FileId) (c : SourceCache) :
    let outcome := (completeRow ctx f (before ++ after) row (Text.size before) c).1
    List.Forall₂ (CompletionItem.Shows d p) outcome.proposals
      (CompletionItem.ofProposals d outcome.proposals) := by
  refine CompletionItem.forall₂_ofProposals fun proposal hproposal index => ?_
  obtain ⟨region, hregion, hcontains, hproposes⟩ := proposes_completeRow hproposal
  obtain ⟨hleft, hcovers⟩ := covers_of_contains h.row_eq h.text_eq hregion hcontains
  exact h.exists_shows hleft hcovers hcontains hproposes.replaced index

/-- Completion fails exactly below the last line, and names that line. Everywhere else there is one item for
every proposal, in the order of the proposals. -/
theorem items_of_completeAt (ctx : CompletionContext) (f : FileId) (d : Document) (p : Position)
    (c : SourceCache) :
    (∀ error, (completeAt ctx f d p c).1 = .error error ↔
      d.lineCount ≤ p.line.toNat ∧ error = .missingLine p.line.toNat) ∧
    (p.line.toNat < d.lineCount → ∃ outcome, (completeAt ctx f d p c).1 = .ok outcome ∧
      List.Forall₂ (CompletionItem.Shows d p) outcome.proposals (items ctx true f (some d) p c).1) := by
  by_cases hline : p.line.toNat < d.lineCount
  · obtain ⟨span, before, after, row, hcursor⟩ := exists_cursorAt hline
    have hcomplete := hcursor.completeAt_eq ctx f c
    refine ⟨fun error => ?_, fun _ => ⟨_, by rw [hcomplete], ?_⟩⟩
    · rw [hcomplete]
      constructor
      · intro h
        cases h
      · exact fun h => absurd hline (Nat.not_lt_of_le h.1)
    · simp only [items, hcomplete, if_true]
      exact hcursor.forall₂_ofProposals ctx f _
  · have hle := Nat.le_of_not_lt hline
    refine ⟨fun error => ?_, fun h => absurd h hline⟩
    rw [completeAt_of_le ctx f c hle]
    simp only [Except.error.injEq, hle, true_and]
    exact eq_comm

/-- The column is in the middle of the surrogate pair at the end of the keyword and stands for that end. -/
theorem items_of_completeAt_surrogate :
    let ctx : CompletionContext := ⟨⟨⟨[([], .directory)]⟩, []⟩, ⟨[], false⟩, .anywhere⟩
    let f : FileId := ⟨"/w/m.robot".toList⟩
    let d := Document.ofText "*** Keywords ***\r\nA𝄞\r\n  A𝄞  x".toList 1
    2 < d.lineCount ∧
      ∃ outcome, (completeAt ctx f d ⟨2, 4⟩ SourceCache.empty).1 = .ok outcome ∧
        outcome.proposals = [⟨"A𝄞".toList, ⟨27, 32⟩, "m.robot".toList⟩] ∧
        (items ctx true f (some d) ⟨2, 4⟩ SourceCache.empty).1.map CompletionItem.range =
          [⟨⟨2, 2⟩, ⟨2, 5⟩⟩] ∧
        List.Forall₂ (CompletionItem.Shows d ⟨2, 4⟩) outcome.proposals
          (items ctx true f (some d) ⟨2, 4⟩ SourceCache.empty).1 := by
  intro ctx f d
  have hline : 2 < d.lineCount := by decide
  have hproposals : (completeAt ctx f d ⟨2, 4⟩ SourceCache.empty).1.map CompletionOutcome.proposals =
      .ok [⟨"A𝄞".toList, ⟨27, 32⟩, "m.robot".toList⟩] := by decide +kernel
  obtain ⟨outcome, houtcome, hitems⟩ :=
    (items_of_completeAt ctx f d ⟨2, 4⟩ SourceCache.empty).2 hline
  rw [houtcome] at hproposals
  exact ⟨hline, outcome, houtcome, Except.ok.inj hproposals, by decide +kernel, hitems⟩

lemma lex_padded {count : Nat} (h : 2 ≤ count) : Token.lex ("  Tw".toList ++ List.replicate count ' ') =
    [⟨.blank, "  ".toList, 0⟩, ⟨.text, "Tw".toList, 2⟩, ⟨.blank, List.replicate count ' ', 4⟩] := by
  have hlex : lex "  Tw".toList = [⟨.blank, "  ".toList, 0⟩, ⟨.text, "Tw".toList, 2⟩] := by decide +kernel
  have hjoins : Token.Joins "  Tw".toList (List.replicate count ' ') := by
    intro x hx c hc
    rw [hlex] at hx
    obtain rfl := Option.some.inj hx
    rw [List.eq_of_mem_replicate (List.mem_of_mem_head? hc)]
    decide
  obtain ⟨m, rfl⟩ : ∃ m, count = m + 1 := ⟨count - 1, by omega⟩
  have hblanks : munch (List.replicate (m + 1) ' ') = some (.blank, List.replicate (m + 1) ' ', []) := by
    rw [List.replicate_succ, munch_cons_of_isBlank (by rfl)]
    obtain ⟨htake, hdrop⟩ := Text.takeWhile_eq_self_iff.2 (Text.isBlank_of_mem_replicate (n := m))
    rw [htake, hdrop]
  have hwhole := lexFrom_append (n := 0) hjoins
  rw [lex, hwhole, ← lex, hlex, lexFrom_of_munch hblanks, lexFrom_nil]
  rfl

lemma splitCells_padded {count : Nat} (h : 2 ≤ count) (base : Nat) :
    splitCells ("  Tw".toList ++ List.replicate count ' ') base =
      ([⟨[], base, base⟩, ⟨"Tw".toList, base + 2, base + 4⟩], none) := by
  have hnone : IsColumn [] := ⟨by simp, rfl⟩
  have hname : IsColumn [⟨.text, "Tw".toList, 2⟩] := ⟨by simp [isSeparator], rfl⟩
  have hpad : Token.isSeparator ⟨.blank, List.replicate count ' ', 4⟩ = true := by
    simp [isSeparator, isSeparatorRun, h]
  have hlex : lex ("  Tw".toList ++ List.replicate count ' ') =
      [] ++ ⟨.blank, "  ".toList, 0⟩ :: ([⟨.text, "Tw".toList, 2⟩] ++ [⟨.blank, List.replicate count ' ', 4⟩]) :=
    lex_padded h
  rw [splitCells_of_separator hlex hnone (by decide), cellsIn_append_cons hname hpad,
    commentIn_append_cons hname hpad]
  rfl

/-- A text with a keyword and a step that starts to name it, with blanks behind that. -/
def paddedText (count : Nat) : Text :=
  ['\n'].intercalate
    ["*** Keywords ***".toList, "Two".toList, "  Tw".toList ++ List.replicate count ' ']

def headerRow : Row := ⟨0, 16, [⟨"*** Keywords ***".toList, 0, 16⟩], none, .header .keywords⟩

def nameRow : Row := ⟨17, 3, [⟨"Two".toList, 17, 20⟩], none, .keywordBegin⟩

def paddedRow (count : Nat) : Row :=
  ⟨21, 4 + count, [⟨[], 21, 21⟩, ⟨"Tw".toList, 23, 25⟩], none, .keywordStep⟩

lemma read_header : Row.read none 0 (Row.chomp "*** Keywords ***".toList) = (headerRow, some .keywords) := by
  decide +kernel

lemma parse_paddedText {count : Nat} (h : 2 ≤ count) :
    Row.parse (paddedText count) = [headerRow, nameRow, paddedRow count] := by
  have hfeed : ∀ line ∈ ["*** Keywords ***".toList, "Two".toList, "  Tw".toList ++ List.replicate count ' '],
      '\n' ∉ line := by
    simp
  have hname : Row.read (some .keywords) 17 (Row.chomp "Two".toList) = (nameRow, some .keywords) := by
    decide +kernel
  have hsize : Text.size ("  Tw".toList ++ List.replicate count ' ') = 4 + count := by
    rw [Text.size_append, Text.size_replicate_blank]
    rfl
  have hstep : Row.read (some .keywords) 21 ("  Tw".toList ++ List.replicate count ' ') =
      (paddedRow count, some .keywords) := by
    rw [Row.read, splitCells_padded h, hsize]
    rfl
  have hchomp : Row.chomp ("  Tw".toList ++ List.replicate count ' ') = "  Tw".toList ++ List.replicate count ' ' :=
    Row.chomp_of_notMem (by simp [List.mem_replicate])
  have hheader : 0 + Text.size "*** Keywords ***".toList + 1 = 17 := by decide
  have htwo : 17 + Text.size "Two".toList + 1 = 21 := by decide
  rw [Row.parse, paddedText, Row.lines_intercalate (List.cons_ne_nil _ _) hfeed]
  simp only [Row.readAll, read_header, hheader, hname, htwo, hchomp, hstep]

lemma row_padded {count : Nat} (h : 2 ≤ count) :
    (Row.parse (paddedText count))[2]? = some (paddedRow count) := by
  rw [parse_paddedText h]
  rfl

lemma cursorAt_padded {count : Nat} (h : 2 ≤ count) (before : Text) {after : Text}
    (ht : "  Tw".toList ++ List.replicate count ' ' = before ++ after)
    (hunits : Text.units16 before < 2 ^ 32) :
    CursorAt (Document.ofText (paddedText count) 1) ⟨2, .ofNat (Text.units16 before)⟩
      ⟨21, 21 + (4 + count)⟩ before after (paddedRow count) := by
  have hrow : (Source.ofText (paddedText count)).row? 2 = some (paddedRow count) := row_padded h
  have htext : paddedText count = "*** Keywords ***\nTwo\n".toList ++ ((before ++ after) ++ []) := by
    rw [← ht]
    exact Row.intercalate_append_cons ["*** Keywords ***".toList, "Two".toList] _ []
  have hlength : (paddedRow count).length = Text.size (before ++ after) := by
    rw [← ht, Text.size_append, Text.size_replicate_blank]
    rfl
  have hstart : Text.size "*** Keywords ***\nTwo\n".toList = 21 := by decide
  exact cursorAt_of_row? (Document.ofText (paddedText count) 1) 2 hrow htext hstart.symm hlength hunits

lemma of?_padded {count : Nat} :
    KeywordRegion.of? ("  Tw".toList ++ List.replicate count ' ') (paddedRow count) =
      some ⟨2, 4 + count, 2⟩ := by
  have hleft : KeywordRegion.leftOf ([] ++ ("  ".toList ++ ("Tw".toList ++ List.replicate count ' ')))
      (paddedRow count) = Text.size [] + Text.size "  ".toList :=
    KeywordRegion.leftOf_of_isSeparatorRun rfl rfl (by simp [Text.isBlank]) (by decide)
      (by simp [Text.isBlank])
  have hright : KeywordRegion.rightOf ("  Tw".toList ++ List.replicate count ' ') (paddedRow count) =
      4 + count := by
    rw [KeywordRegion.rightOf_eq_size (by simp [paddedRow]) rfl, Text.size_append, Text.size_replicate_blank]
    rfl
  have hleft' : KeywordRegion.leftOf ("  Tw".toList ++ List.replicate count ' ') (paddedRow count) = 2 := hleft
  rw [KeywordRegion.of?, if_pos (by rfl), hleft', hright]
  rfl

lemma ofSource_padded (f : FileId) {count : Nat} (h : 2 ≤ count) :
    KeywordDefinition.ofSource f (Source.ofText (paddedText count)) = [⟨"Two".toList, .file f, some 1⟩] := by
  have hrows : (Source.ofText (paddedText count)).rows = _ := parse_paddedText h
  rw [KeywordDefinition.ofSource, hrows]
  rfl

/-- The keyword is proposed for all that stands behind the separator. -/
lemma exists_proposals_padded (ctx : CompletionContext) (f : FileId) {count : Nat} (h : 2 ≤ count) :
    ∃ detail more, (completeRow ctx f ("  Tw".toList ++ List.replicate count ' ') (paddedRow count) 4
      (SourceCache.empty.update f (paddedText count))).1.proposals =
        ⟨"Two".toList, ⟨23, 21 + (4 + count)⟩, detail⟩ :: more := by
  have hregion : (KeywordRegion.of? ("  Tw".toList ++ List.replicate count ' ') (paddedRow count)).filter
      (·.contains 4) = some ⟨2, 4 + count, 2⟩ := by
    rw [of?_padded]
    refine Option.filter_eq_some_iff.2 ⟨rfl, ?_⟩
    exact KeywordRegion.contains_iff.2 ⟨Nat.le_of_ble_eq_true rfl, Nat.le_add_right 4 count⟩
  obtain ⟨more, hvisible⟩ := exists_visibleKeywords_eq_append
    (SourceCache.buffer?_update_self SourceCache.empty f (paddedText count)) ctx.environment ctx.scope
    (.ofTyped ctx.mode "Tw".toList)
  have haccepts : (KeywordFilter.ofTyped ctx.mode "Tw".toList).accepts "Two".toList = true := by
    cases ctx.mode <;> decide +kernel
  rw [ofSource_padded f h, List.filter_cons, if_pos haccepts, List.filter_nil] at hvisible
  have hfound : (search ctx f (KeywordRegion.replaced ⟨2, 4 + count, 2⟩ 21) (.ofTyped ctx.mode "Tw".toList)
      (SourceCache.empty.update f (paddedText count))).1 =
      .ofDefinition ⟨23, 21 + (4 + count)⟩ ⟨"Two".toList, .file f, some 1⟩ ::
        more.map (.ofDefinition ⟨23, 21 + (4 + count)⟩) := by
    change (visibleKeywords _ _ _ _ _).1.map _ = _
    rw [hvisible]
    rfl
  have henough : isEnough "Tw".toList (search ctx f (KeywordRegion.replaced ⟨2, 4 + count, 2⟩ 21)
      (.ofTyped ctx.mode "Tw".toList) (SourceCache.empty.update f (paddedText count))).1 = true := by
    rw [hfound]
    cases more <;> rfl
  have hkeyword : (paddedRow count).cell? 1 = some ⟨"Tw".toList, 23, 25⟩ := rfl
  refine ⟨(KeywordOrigin.file f).display, more.map (.ofDefinition ⟨23, 21 + (4 + count)⟩), ?_⟩
  rw [completeRow, hregion]
  simp only [plan_of_cell? hkeyword]
  exact (congrArg CompletionOutcome.proposals (searchInTurn_of_enough henough)).trans hfound

/-- The item of the keyword reaches from the separator to the end of the row, whose column wraps around. -/
lemma exists_item_padded (ctx : CompletionContext) (f : FileId) {count : Nat} (h : 2 ≤ count) :
    let d := Document.ofText (paddedText count) 1
    (LineView.offsetAt? d ⟨2, 4⟩).bind (LineView.positionAt? d) = some ⟨2, 4⟩ ∧
      ∃ item ∈ (items ctx true f (some d) ⟨2, 4⟩ SourceCache.empty).1,
        item.name = "Two".toList ∧ item.range = ⟨⟨2, 2⟩, ⟨2, .ofNat (4 + count)⟩⟩ := by
  intro d
  have hcursor : CursorAt d ⟨2, 4⟩ ⟨21, 21 + (4 + count)⟩ "  Tw".toList (List.replicate count ' ')
      (paddedRow count) := cursorAt_padded h _ rfl (by decide)
  have hitems : (items ctx true f (some d) ⟨2, 4⟩ SourceCache.empty).1 = CompletionItem.ofProposals d
      (completeRow ctx f ("  Tw".toList ++ List.replicate count ' ') (paddedRow count)
        (Text.size "  Tw".toList) (SourceCache.empty.update f d.text)).1.proposals := by
    simp only [items, hcursor.completeAt_eq ctx f SourceCache.empty, if_true]
    rfl
  obtain ⟨detail, more, hproposals⟩ := exists_proposals_padded ctx f h
  have hshows := hcursor.forall₂_ofProposals ctx f (SourceCache.empty.update f d.text)
  have hfirst : (completeRow ctx f ("  Tw".toList ++ List.replicate count ' ') (paddedRow count)
      (Text.size "  Tw".toList) (SourceCache.empty.update f d.text)).1.proposals = _ := hproposals
  dsimp only at hshows
  rw [← hitems, hfirst] at hshows
  obtain ⟨item, rest, hitem, -, hrest⟩ := List.forall₂_cons_left_iff.1 hshows
  have hstart : LineView.positionAt? d 23 = some ⟨2, 2⟩ :=
    Document.positionAt?_eq hcursor.span_eq (a := "  ".toList) (b := "Tw".toList ++ List.replicate count ' ')
      hcursor.slice_eq
  have hstop := Document.positionAt?_eq hcursor.span_eq (b := [])
    (hcursor.slice_eq.trans (congrArg some (List.append_nil _).symm))
  rw [Text.size_append, Text.size_replicate_blank, Text.units16_append, Text.units16_replicate_blank] at hstop
  refine ⟨?_, item, by rw [hrest]; exact List.mem_cons_self, hitem.name, ?_⟩
  · rw [hcursor.offset_eq, Option.bind_some]
    exact Document.positionAt?_eq hcursor.span_eq hcursor.slice_eq
  · have hfrom := Option.some.inj (hitem.start.symm.trans hstart)
    have hto := Option.some.inj (hitem.stop.symm.trans hstop)
    calc item.range = ⟨item.range.start, item.range.stop⟩ := rfl
      _ = ⟨⟨2, 2⟩, ⟨2, .ofNat (4 + count)⟩⟩ := by rw [hfrom, hto]; rfl

/-- On a row of 2 ^ 32 + 1 characters the item ends before the cursor, and before it starts. -/
theorem exists_item_before_cursor :
    let ctx : CompletionContext := ⟨⟨⟨[]⟩, []⟩, ⟨[], false⟩, .leading⟩
    let f : FileId := ⟨"/w/m.robot".toList⟩
    let d := Document.ofText (paddedText (2 ^ 32 - 3)) 1
    (LineView.offsetAt? d ⟨2, 4⟩).bind (LineView.positionAt? d) = some ⟨2, 4⟩ ∧
      ∃ item ∈ (items ctx true f (some d) ⟨2, 4⟩ SourceCache.empty).1,
        item.range = ⟨⟨2, 2⟩, ⟨2, 1⟩⟩ := by
  intro ctx f d
  have hone : UInt32.ofNat (4 + (2 ^ 32 - 3)) = 1 := rfl
  have hcount : 2 ≤ 2 ^ 32 - 3 := by decide
  obtain ⟨hcursor, item, hmem, -, hrange⟩ := exists_item_padded ctx f hcount
  rw [hone] at hrange
  exact ⟨hcursor, item, hmem, hrange⟩

end Completion

end KeywordCompletion
