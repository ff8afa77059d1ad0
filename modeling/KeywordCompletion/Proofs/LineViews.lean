import KeywordCompletion.Proofs.Positions
import KeywordCompletion.Proofs.Row.Lines
import KeywordCompletion.Source

/-!
# Documents and sources as views of a text

A document finds its lines in a table of offsets, a source finds them in its rows. Both give the spans of
the lines of the text one behind the other, so after any edits a document and the source of its text answer
alike: `Document.agrees_run`.
-/

namespace KeywordCompletion

namespace LineView

/-- Two views that give the same answers. -/
structure Agrees {α β : Type} [LineView α] [LineView β] (a : α) (b : β) : Prop where
  lineOfOffset?_eq : ∀ offset, lineOfOffset? b offset = lineOfOffset? a offset
  lineSpan?_eq : ∀ line, lineSpan? b line = lineSpan? a line
  lineStart?_eq : ∀ line, lineStart? b line = lineStart? a line
  lineText?_eq : ∀ line, lineText? b line = lineText? a line
  slice?_eq : ∀ span, slice? b span = slice? a span

/-- A view whose lines divide its text: they stand one behind the other, with a line feed and perhaps one
carriage return between them, and every offset lies on one of them only. -/
structure Partitions {α : Type} [LineView α] (view : α) : Prop where
  /-- The line of an offset is the one that starts at or before it and behind which the next one starts. -/
  lineOfOffset?_eq_some_iff : ∀ offset line, lineOfOffset? view offset = some line ↔
    offset ≤ Text.size (text view) ∧ (∃ start, lineStart? view line = some start ∧ start ≤ offset) ∧
      ∀ next, lineStart? view (line + 1) = some next → offset < next
  exists_line : ∀ offset ≤ Text.size (text view), ∃ line, lineOfOffset? view offset = some line
  start : lineStart? view 0 = some 0
  /-- Between two lines. -/
  terminator : ∀ line span next, lineSpan? view line = some span →
    lineStart? view (line + 1) = some next →
    slice? view ⟨span.stop, next⟩ = some ['\n'] ∨ slice? view ⟨span.stop, next⟩ = some ['\r', '\n']
  /-- Behind the last line. -/
  ending : ∀ line span, lineSpan? view line = some span → lineStart? view (line + 1) = none →
    slice? view ⟨span.stop, Text.size (text view)⟩ = some [] ∨
      slice? view ⟨span.stop, Text.size (text view)⟩ = some ['\r']
  feed : ∀ line span, lineSpan? view line = some span →
    ∃ t, lineText? view line = some t ∧ '\n' ∉ t

end LineView

namespace Row

variable {t : Text} {n : Nat} {span : Span}

/-- The spans of lines of which the first starts at byte `start`. -/
def spansFrom (start : Nat) : List Text → List Span
  | [] => []
  | line :: more =>
    ⟨start, start + Text.size (chomp line)⟩ :: spansFrom (start + Text.size line + 1) more

def spans (t : Text) : List Span := spansFrom 0 (lines t)

lemma map_span_readAll (table : Option Table) (start : Nat) (lines : List Text) :
    (readAll table start lines).map (fun row => ⟨row.start, row.stop⟩) = spansFrom start lines := by
  induction lines generalizing table start with
  | nil => rfl
  | cons line lines ih =>
    rw [readAll, spansFrom]
    simp only [List.map_cons, ih]
    rfl

lemma spansFrom_append (start : Nat) (before more : List Text) :
    spansFrom start (before ++ more) = spansFrom start before ++
      spansFrom (start + Text.size (before.flatMap (· ++ ['\n']))) more := by
  induction before generalizing start with
  | nil => rfl
  | cons line before ih =>
    rw [List.cons_append, spansFrom, spansFrom, ih, size_feeds_cons, List.cons_append]

lemma length_spansFrom (start : Nat) (lines : List Text) :
    (spansFrom start lines).length = lines.length := by
  induction lines generalizing start with
  | nil => rfl
  | cons line lines ih => rw [spansFrom, List.length_cons, List.length_cons, ih]

/-- Where a line stands in its text: behind `before`, with its ending before the end of the text or before a
line feed. -/
structure LineAt (t : Text) (n : Nat) (before body ending after : Text) : Prop where
  text_eq : t = before ++ (body ++ (ending ++ after))
  feed : '\n' ∉ body
  ends : EndsLine body ending
  span : (spans t)[n]? = some ⟨Text.size before, Text.size before + Text.size body⟩
  next : after = [] ∧ (spans t)[n + 1]? = none ∨ ∃ rest, after = '\n' :: rest ∧
    ((spans t)[n + 1]?).map Span.start = some (Text.size before + Text.size (body ++ ending) + 1)

lemma exists_lineAt (h : (spans t)[n]? = some span) :
    ∃ before body ending after, LineAt t n before body ending after := by
  obtain ⟨hlt, -⟩ := List.getElem?_eq_some_iff.1 h
  rw [spans, length_spansFrom] at hlt
  let first := (lines t).take n
  let line := (lines t)[n]
  let last := (lines t).drop (n + 1)
  let before := first.flatMap (· ++ ['\n'])
  have hlines : lines t = first ++ line :: last := by
    rw [List.getElem_cons_drop, List.take_append_drop]
  have hlength : (spansFrom 0 first).length = n := by
    rw [length_spansFrom, List.length_take]
    omega
  have htext : t = before ++ (line ++ last.flatMap ('\n' :: ·)) := by
    rw [← intercalate_append_cons first line last, ← hlines]
    exact (intercalate_cut (by simp) t).symm
  have hspans : spans t = spansFrom 0 first ++
      ⟨Text.size before, Text.size before + Text.size (chomp line)⟩ ::
        spansFrom (Text.size before + Text.size line + 1) last := by
    rw [spans, hlines, spansFrom_append, Nat.zero_add, spansFrom]
  have hfeed : '\n' ∉ line := by
    apply not_mem_of_mem_lines (t := t)
    rw [hlines]
    simp
  obtain ⟨ending, hline, hends⟩ := exists_chomp_append line
  refine ⟨before, chomp line, ending, last.flatMap ('\n' :: ·), ?_, ?_, hends, ?_, ?_⟩
  · rw [htext, ← List.append_assoc (chomp line), ← hline]
  · exact fun hmem => hfeed (mem_of_mem_chomp hmem)
  · rw [hspans, List.getElem?_append_right (by omega), hlength, Nat.sub_self]
    rfl
  · rw [hspans, List.getElem?_append_right (by omega), hlength, Nat.add_sub_cancel_left, ← hline]
    cases last with
    | nil => exact Or.inl ⟨rfl, rfl⟩
    | cons next more => exact Or.inr ⟨next ++ more.flatMap ('\n' :: ·), rfl, rfl⟩

lemma stop_chomp (start : Nat) (line : Text) :
    (if line.getLast? = some '\r' then start + Text.size line - 1 else start + Text.size line) =
      start + Text.size (chomp line) := by
  by_cases hr : line.getLast? = some '\r'
  · obtain ⟨body, rfl⟩ := List.getLast?_eq_some_iff.1 hr
    have hsize : Text.size ['\r'] = 1 := rfl
    rw [if_pos hr, chomp, if_pos hr, List.dropLast_concat, Text.size_append, hsize]
    omega
  · rw [if_neg hr, chomp, if_neg hr]

/-- The offsets at which the lines behind the first one start, of a text that starts at byte `start`. -/
def laterStarts (start : Nat) (t : Text) : List Nat := ((spansFrom start (lines t)).map Span.start).tail

lemma laterStarts_cons (start : Nat) (c : Char) (t : Text) :
    laterStarts start (c :: t) =
      if c = '\n' then (start + c.utf8Size) :: laterStarts (start + c.utf8Size) t
      else laterStarts (start + c.utf8Size) t := by
  obtain ⟨line, more, hlines⟩ := List.exists_cons_of_ne_nil (cut_ne_nil (· == '\n') t)
  split
  · rename_i hc
    subst hc
    have hcut : lines ('\n' :: t) = [] :: lines t := cut_cons_of_isCut _ (by simp) t
    rw [laterStarts, laterStarts, hcut, lines, hlines]
    rfl
  · rename_i hc
    have hcut : lines (c :: t) = (c :: line) :: more := cut_cons_of_not (by simpa using hc) hlines
    rw [laterStarts, laterStarts, hcut, lines, hlines]
    simp only [spansFrom, List.map_cons, List.tail_cons, Text.size_cons, Nat.add_assoc]

end Row

namespace Document

open Row

lemma lineStartsFrom_eq (start : Nat) (t : Text) :
    lineStartsFrom start t = start :: laterStarts start t := by
  let advance : Nat × List Nat → Char → Nat × List Nat := fun reached c =>
    (reached.1 + c.utf8Size, if c == '\n' then (reached.1 + c.utf8Size) :: reached.2 else reached.2)
  -- The fold has read the text up to `offset`; the starts that it has found stand in reverse.
  have h : ∀ offset starts,
      (t.foldl advance (offset, starts)).2 = (laterStarts offset t).reverse ++ starts := by
    induction t with
    | nil => exact fun offset starts => rfl
    | cons c t ih =>
      intro offset starts
      rw [List.foldl_cons, ih, laterStarts_cons]
      by_cases hc : c = '\n' <;> simp [hc]
  change (t.foldl advance (start, [start])).2.reverse = _
  rw [h]
  simp

lemma lineStartsOf_eq (t : Text) : lineStartsOf t = (spans t).map Span.start := by
  obtain ⟨line, more, hlines⟩ := List.exists_cons_of_ne_nil (cut_ne_nil (· == '\n') t)
  rw [lineStartsOf, lineStartsFrom_eq, laterStarts, spans, lines, hlines]
  rfl

lemma lineStarts_eq_map (d : Document) : d.lineStarts = (spans d.text).map Span.start := by
  rw [d.lineStarts_eq, lineStartsOf_eq]

lemma lineSpan?_eq (d : Document) (n : Nat) : LineView.lineSpan? d n = (spans d.text)[n]? := by
  cases hspan : (spans d.text)[n]? with
  | none =>
    have hstart : d.lineStarts[n]? = none := by rw [lineStarts_eq_map, List.getElem?_map, hspan]; rfl
    simp [LineView.lineSpan?, hstart]
  | some span =>
    obtain ⟨before, body, ending, after, h⟩ := exists_lineAt hspan
    obtain rfl := Option.some.inj (hspan.symm.trans h.span)
    have hstart : d.lineStarts[n]? = some (Text.size before) := by
      rw [lineStarts_eq_map, List.getElem?_map, hspan]
      rfl
    have hnext : d.lineStarts[n + 1]? = ((spans d.text)[n + 1]?).map Span.start := by
      rw [lineStarts_eq_map, List.getElem?_map]
    have hslice : Text.slice? d.text (Text.size before) (Text.size before + Text.size (body ++ ending)) =
        some (body ++ ending) := by
      rw [h.text_eq, ← List.append_assoc body]
      exact Text.slice?_append before (body ++ ending) after
    have hstop := stop_chomp (Text.size before) (body ++ ending)
    rw [chomp_append h.ends] at hstop
    rcases h.next with ⟨rfl, hnone⟩ | ⟨rest, -, hsome⟩
    · have hsize : Text.size d.text = Text.size before + Text.size (body ++ ending) := by
        rw [h.text_eq, List.append_nil, Text.size_append]
      rw [hnone, Option.map_none] at hnext
      simp only [LineView.lineSpan?, hstart, hnext, Option.map_some, hsize, hslice, Option.any_some,
        decide_eq_true_eq, hstop]
    · rw [hsome] at hnext
      simp only [LineView.lineSpan?, hstart, hnext, Option.map_some, Nat.add_sub_cancel, hslice,
        Option.any_some, decide_eq_true_eq, hstop]

end Document

namespace LineView

open Row

/-- A view that gives the spans of the lines of its text, and for an offset in the text the last line that
starts at or before it. -/
structure FollowsLines {α : Type} [LineView α] (view : α) : Prop where
  lineSpan?_eq : ∀ n, lineSpan? view n = (spans (text view))[n]?
  lineOfOffset?_eq_some_iff : ∀ offset n, lineOfOffset? view offset = some n ↔
    offset ≤ Text.size (text view) ∧
      (((spans (text view)).map Span.start).takeWhile (· ≤ offset)).length = n + 1

end LineView

lemma Document.followsLines (d : Document) : LineView.FollowsLines d := by
  refine ⟨d.lineSpan?_eq, fun offset n => ?_⟩
  change _ ↔ _ ∧ (((Row.spans d.text).map Span.start).takeWhile _).length = _
  rw [← d.lineStarts_eq_map]
  by_cases hsize : Text.size d.text < offset
  · simp [LineView.lineOfOffset?, LineView.text, hsize, Nat.not_le_of_gt hsize]
  · cases hlength : (d.lineStarts.takeWhile fun start => decide (start ≤ offset)).length <;>
      simp [LineView.lineOfOffset?, LineView.text, hsize, hlength, Nat.le_of_not_gt hsize]

lemma Source.followsLines (s : Source) : LineView.FollowsLines s := by
  have hspans : Row.spans s.text = s.rows.map fun row => ⟨row.start, row.stop⟩ := by
    rw [s.rows_eq]
    exact (Row.map_span_readAll none 0 _).symm
  refine ⟨fun n => ?_, fun offset n => ?_⟩
  · change (s.rows[n]?).map _ = (Row.spans s.text)[n]?
    rw [hspans, List.getElem?_map]
  · have hstarts : ((Row.spans s.text).map Span.start).takeWhile (fun start => decide (start ≤ offset)) =
        (s.rows.takeWhile fun row => decide (row.start ≤ offset)).map Row.start := by
      rw [hspans, List.map_map, List.takeWhile_map]
      rfl
    change _ ↔ _ ∧ (((Row.spans s.text).map Span.start).takeWhile _).length = _
    rw [hstarts, List.length_map]
    by_cases hsize : Text.size s.text < offset
    · simp [LineView.lineOfOffset?, LineView.text, hsize, Nat.not_le_of_gt hsize]
    · cases hlength : (s.rows.takeWhile fun row => decide (row.start ≤ offset)).length <;>
        simp [LineView.lineOfOffset?, LineView.text, hsize, hlength, Nat.le_of_not_gt hsize]

namespace LineView

open Row

variable {α β : Type} [LineView α] [LineView β] {a : α} {b : β} {view : α} {n : Nat} {span : Span}

/-- Two views that follow the lines of the same text give the same answers. -/
lemma FollowsLines.agrees (ha : FollowsLines a) (hb : FollowsLines b) (htext : text b = text a) :
    Agrees a b := by
  have hspan : ∀ line, lineSpan? b line = lineSpan? a line := by
    intro line
    rw [ha.lineSpan?_eq, hb.lineSpan?_eq, htext]
  have hslice : ∀ span, slice? b span = slice? a span := by
    intro span
    rw [slice?, slice?, htext]
  refine ⟨fun offset => Option.ext fun line => ?_, hspan, fun line => ?_, fun line => ?_, hslice⟩
  · rw [ha.lineOfOffset?_eq_some_iff, hb.lineOfOffset?_eq_some_iff, htext]
  · rw [lineStart?, lineStart?, hspan]
  · rw [lineText?, lineText?, hspan]
    exact congrArg _ (funext hslice)

/-- Of rising numbers the last one that is not above a bound is the one before the first one above it. -/
lemma length_takeWhile_le_iff {starts : List Nat} (h : starts.Pairwise (· < ·)) {offset : Nat} :
    (starts.takeWhile (· ≤ offset)).length = n + 1 ↔
      (∃ start, starts[n]? = some start ∧ start ≤ offset) ∧
        ∀ next, starts[n + 1]? = some next → offset < next := by
  constructor
  · intro hlength
    obtain ⟨low, hlow⟩ : ∃ low, starts.takeWhile (· ≤ offset) = low := ⟨_, rfl⟩
    obtain ⟨high, hhigh⟩ : ∃ high, starts.dropWhile (· ≤ offset) = high := ⟨_, rfl⟩
    have hsplit : starts = low ++ high := by rw [← hlow, ← hhigh, List.takeWhile_append_dropWhile]
    rw [hlow] at hlength
    constructor
    · have hlt : n < low.length := by omega
      have hmem : low[n] ∈ starts.takeWhile (· ≤ offset) := by
        rw [hlow]
        exact List.getElem_mem hlt
      refine ⟨low[n], ?_, by simpa using List.mem_takeWhile_imp hmem⟩
      rw [hsplit, List.getElem?_append_left hlt]
      exact List.getElem?_eq_getElem hlt
    · intro next hnext
      rw [hsplit, List.getElem?_append_right (by omega), hlength, Nat.sub_self,
        ← List.head?_eq_getElem?, ← hhigh] at hnext
      have hnot := List.head?_dropWhile_not (fun start => decide (start ≤ offset)) starts
      rw [hnext] at hnot
      simpa using hnot
  · rintro ⟨⟨start, hstart, hle⟩, hnext⟩
    exact Document.length_takeWhile_le h hstart hle hnext

lemma FollowsLines.lineStart?_eq (h : FollowsLines view) (n : Nat) :
    lineStart? view n = ((spans (text view)).map Span.start)[n]? := by
  rw [lineStart?, h.lineSpan?_eq, List.getElem?_map]

lemma FollowsLines.exists_lineAt (h : FollowsLines view) (hspan : lineSpan? view n = some span) :
    ∃ before body ending after, LineAt (text view) n before body ending after ∧
      span = ⟨Text.size before, Text.size before + Text.size body⟩ := by
  rw [h.lineSpan?_eq] at hspan
  obtain ⟨before, body, ending, after, hline⟩ := Row.exists_lineAt hspan
  exact ⟨before, body, ending, after, hline, Option.some.inj (hspan.symm.trans hline.span)⟩

/-- Between two lines there is the ending of the first one and a line feed. -/
lemma FollowsLines.terminator (h : FollowsLines view) {next : Nat} (hspan : lineSpan? view n = some span)
    (hnext : lineStart? view (n + 1) = some next) :
    slice? view ⟨span.stop, next⟩ = some ['\n'] ∨ slice? view ⟨span.stop, next⟩ = some ['\r', '\n'] := by
  obtain ⟨before, body, ending, after, hline, rfl⟩ := h.exists_lineAt hspan
  rw [h.lineStart?_eq, List.getElem?_map] at hnext
  rcases hline.next with ⟨-, hnone⟩ | ⟨rest, rfl, hsome⟩
  · rw [hnone] at hnext
    cases hnext
  · obtain rfl := Option.some.inj (hsome.symm.trans hnext)
    have hslice : slice? view ⟨Text.size before + Text.size body,
        Text.size before + Text.size (body ++ ending) + 1⟩ = some (ending ++ ['\n']) := by
      rw [slice?, Text.slice?_eq_some_iff]
      refine ⟨before ++ body, rest, by rw [hline.text_eq]; simp, Text.size_append _ _, ?_⟩
      rw [Text.size_append, Text.size_append, Nat.add_assoc, Nat.add_assoc, Nat.add_assoc]
      rfl
    rw [hslice]
    rcases hline.ends with ⟨rfl, -⟩ | rfl
    · exact Or.inl rfl
    · exact Or.inr rfl

lemma FollowsLines.ending (h : FollowsLines view) (hspan : lineSpan? view n = some span)
    (hnext : lineStart? view (n + 1) = none) :
    slice? view ⟨span.stop, Text.size (text view)⟩ = some [] ∨
      slice? view ⟨span.stop, Text.size (text view)⟩ = some ['\r'] := by
  obtain ⟨before, body, ending, after, hline, rfl⟩ := h.exists_lineAt hspan
  rw [h.lineStart?_eq, List.getElem?_map] at hnext
  rcases hline.next with ⟨rfl, -⟩ | ⟨rest, -, hsome⟩
  · have hslice : slice? view ⟨Text.size before + Text.size body, Text.size (text view)⟩ =
        some ending := by
      rw [slice?, Text.slice?_eq_some_iff]
      refine ⟨before ++ body, [], by rw [hline.text_eq]; simp, Text.size_append _ _, ?_⟩
      rw [hline.text_eq, Text.size_append, Text.size_append, List.append_nil, Nat.add_assoc]
    rw [hslice]
    rcases hline.ends with ⟨rfl, -⟩ | rfl
    · exact Or.inl rfl
    · exact Or.inr rfl
  · rw [hsome] at hnext
    cases hnext

/-- The lines of such a view divide its text. -/
theorem FollowsLines.partitions (h : FollowsLines view) : Partitions view := by
  have hpair : ((spans (text view)).map Span.start).Pairwise (· < ·) := by
    rw [← Document.lineStartsOf_eq]
    exact Document.pairwise_lineStartsOf _
  have hfirst : ((spans (text view)).map Span.start).head? = some 0 := by
    rw [← Document.lineStartsOf_eq, Document.lineStartsOf, Document.lineStartsFrom_eq]
    rfl
  refine ⟨fun offset line => ?_, fun offset hoffset => ?_, ?_,
    fun line span next hspan hnext => h.terminator hspan hnext,
    fun line span hspan hnext => h.ending hspan hnext, fun line span hspan => ?_⟩
  · rw [h.lineOfOffset?_eq_some_iff, length_takeWhile_le_iff hpair, h.lineStart?_eq, h.lineStart?_eq]
  · cases hlength : (((spans (text view)).map Span.start).takeWhile (· ≤ offset)).length with
    | zero =>
      obtain ⟨more, hmore⟩ := List.head?_eq_some_iff.1 hfirst
      rw [hmore, List.takeWhile_cons_of_pos (by simp)] at hlength
      cases hlength
    | succ line => exact ⟨line, (h.lineOfOffset?_eq_some_iff offset line).2 ⟨hoffset, hlength⟩⟩
  · rw [h.lineStart?_eq, ← List.head?_eq_getElem?, hfirst]
  · obtain ⟨before, body, ending, after, hline, rfl⟩ := h.exists_lineAt hspan
    refine ⟨body, ?_, hline.feed⟩
    rw [lineText?, hspan, Option.bind_some, slice?, hline.text_eq]
    exact Text.slice?_append before body (ending ++ after)

end LineView

namespace Document

/-- What an editor does to an open document. -/
inductive Edit where
  | change (changes : List Change) (version : Int)
  | replace (t : Text) (version : Int)

def after (d : Document) : Edit → Document
  | .change changes version => d.applyChanges changes version
  | .replace t version => d.setText t version

/-- The document after edits, one after the other. -/
def run (d : Document) (edits : List Edit) : Document := edits.foldl after d

/-- After any edits, whether their ranges lie in the text or not, a document and the source of its text give
the same answers, and the lines of both divide the text. -/
theorem agrees_run (t : Text) (version : Int) (edits : List Edit) :
    let d := (ofText t version).run edits
    LineView.Agrees d (Source.ofText d.text) ∧ LineView.Partitions d ∧
      LineView.Partitions (Source.ofText d.text) := by
  intro d
  have hd := d.followsLines
  have hs := (Source.ofText d.text).followsLines
  exact ⟨hd.agrees hs rfl, hd.partitions, hs.partitions⟩

end Document

end KeywordCompletion
