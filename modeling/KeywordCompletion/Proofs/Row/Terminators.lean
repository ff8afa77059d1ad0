import KeywordCompletion.Proofs.LineViews
import KeywordCompletion.Proofs.Row.Concatenation
import KeywordCompletion.Region

/-!
# Lines that end with a carriage return and a line feed

A carriage return before a line feed belongs to no line. So a text that ends its lines with both is read as
the text that ends them with line feeds alone; every row starts as many bytes later as there are rows before
it: `Row.parse_crlf`.
-/

namespace KeywordCompletion

/-- The text with a carriage return before every line feed. -/
def Text.crlf (t : Text) : Text := t.flatMap fun c => if c = '\n' then ['\r', '\n'] else [c]

/-- The keyword region in a row of a source. -/
def Source.region? (s : Source) (n : Nat) : Option KeywordRegion :=
  (s.row? n).bind fun row => (LineView.lineText? s n).bind fun t => KeywordRegion.of? t row

namespace Row

variable {t : Text}

lemma lines_ne_nil (t : Text) : lines t ≠ [] := cut_ne_nil _ t

lemma lines_feed_cons (t : Text) : lines ('\n' :: t) = [] :: lines t := cut_cons_of_isCut _ rfl t

lemma lines_cons {c : Char} (hc : c ≠ '\n') {line : Text} {more : List Text} (h : lines t = line :: more) :
    lines (c :: t) = (c :: line) :: more := by
  have hcut : ((· == '\n') c : Bool) = false := by simpa using hc
  exact @cut_cons_of_not _ (· == '\n') _ hcut _ _ _ h

/-- Lines of which all but the last one have a carriage return at the end. -/
def withReturns : List Text → List Text
  | [] => []
  | [line] => [line]
  | line :: next :: more => (line ++ ['\r']) :: withReturns (next :: more)

lemma withReturns_cons (line : Text) {more : List Text} (h : more ≠ []) :
    withReturns (line :: more) = (line ++ ['\r']) :: withReturns more := by
  cases more with
  | nil => exact absurd rfl h
  | cons next more => rfl

lemma exists_withReturns_eq_cons (c : Char) (line : Text) (more : List Text) :
    ∃ first rest, withReturns (line :: more) = first :: rest ∧
      withReturns ((c :: line) :: more) = (c :: first) :: rest := by
  cases more with
  | nil => exact ⟨line, [], rfl, rfl⟩
  | cons next more => exact ⟨line ++ ['\r'], withReturns (next :: more), rfl, rfl⟩

lemma lines_crlf (t : Text) : lines (Text.crlf t) = withReturns (lines t) := by
  induction t with
  | nil => rfl
  | cons c t ih =>
    by_cases hc : c = '\n'
    · subst hc
      rw [lines_feed_cons, withReturns_cons [] (lines_ne_nil t), ← ih]
      exact lines_cons (by decide) (lines_feed_cons (Text.crlf t))
    · have hcrlf : Text.crlf (c :: t) = c :: Text.crlf t := by simp [Text.crlf, hc]
      obtain ⟨line, more, hlines⟩ := List.exists_cons_of_ne_nil (lines_ne_nil t)
      obtain ⟨first, rest, hfirst, hnext⟩ := exists_withReturns_eq_cons c line more
      have hrest : lines (Text.crlf t) = first :: rest := by rw [ih, hlines, hfirst]
      rw [hcrlf, lines_cons hc hrest, lines_cons hc hlines, hnext]

lemma map_chomp_withReturns {lines : List Text} (h : ∀ line ∈ lines, '\r' ∉ line) :
    (withReturns lines).map chomp = lines.map chomp := by
  induction lines with
  | nil => rfl
  | cons line lines ih =>
    rw [List.forall_mem_cons] at h
    cases lines with
    | nil => rfl
    | cons next more =>
      rw [withReturns_cons line (by simp), List.map_cons, List.map_cons, ih h.2, chomp_of_notMem h.1,
        chomp_append (Or.inr rfl)]

lemma mem_of_mem_lines {c : Char} {line : Text} (h : line ∈ lines t) (hc : c ∈ line) : c ∈ t := by
  obtain ⟨before, after, hlines⟩ := List.append_of_mem h
  have htext : t = before.flatMap (· ++ ['\n']) ++ (line ++ after.flatMap ('\n' :: ·)) := by
    rw [← intercalate_append_cons before line after, ← hlines]
    exact (intercalate_cut (by simp) t).symm
  rw [htext]
  exact List.mem_append_right _ (List.mem_append_left _ hc)

/-- Every row is read as it is read without the carriage returns, as many bytes further on as there are rows
before it. -/
lemma readAll_withReturns {lines : List Text} (h : ∀ line ∈ lines, '\r' ∉ line) (table : Option Table)
    (k start : Nat) :
    readAll table (k + start) (withReturns lines) =
      (readAll table start lines).mapIdx fun n row => row.shift (k + n) := by
  induction lines generalizing table k start with
  | nil => rfl
  | cons line lines ih =>
    have hplain : chomp line = line := chomp_of_notMem (h line List.mem_cons_self)
    cases lines with
    | nil => simp only [withReturns, readAll, hplain, read_add, List.mapIdx_cons, List.mapIdx_nil, Nat.add_zero]
    | cons next more =>
      have hstart : k + start + Text.size (line ++ ['\r']) + 1 = (k + 1) + (start + Text.size line + 1) := by
        have hreturn : Text.size ['\r'] = 1 := rfl
        rw [Text.size_append]
        omega
      have hmore := ih (fun l hl => h l (List.mem_cons_of_mem _ hl)) (read table start line).2 (k + 1)
        (start + Text.size line + 1)
      rw [withReturns_cons line (by simp), readAll, readAll, chomp_append (Or.inr rfl), hplain, read_add,
        hstart]
      simp only [List.mapIdx_cons, hmore, Nat.add_zero]
      congr 2
      funext n row
      congr 1
      omega

lemma parse_crlf_eq (h : '\r' ∉ t) : parse (Text.crlf t) = (parse t).mapIdx fun n row => row.shift n := by
  have hlines : ∀ line ∈ lines t, '\r' ∉ line := fun line hline hr => h (mem_of_mem_lines hline hr)
  have hread := readAll_withReturns hlines none 0 0
  simp only [Nat.zero_add] at hread
  rw [parse, lines_crlf, hread, parse]

end Row

lemma Source.lineText?_ofText (t : Text) (n : Nat) :
    LineView.lineText? (Source.ofText t) n = ((Row.lines t)[n]?).map Row.chomp := by
  have hspan : LineView.lineSpan? (Source.ofText t) n =
      ((Row.parse t)[n]?).map fun row => ⟨row.start, row.stop⟩ := rfl
  cases hrow : (Row.parse t)[n]? with
  | none =>
    have hline : (Row.lines t)[n]? = none := by
      rw [List.getElem?_eq_none_iff, ← Row.length_parse, ← List.getElem?_eq_none_iff]
      exact hrow
    rw [LineView.lineText?, hspan, hrow, hline]
    rfl
  | some row =>
    obtain ⟨before, line, after, hlines, rfl⟩ := Row.exists_line_of_row hrow
    obtain ⟨ending, hline, -⟩ := Row.exists_chomp_append line
    obtain ⟨rows, table, hlength, hrows⟩ := Row.exists_readAll_append none 0 before
    let pre := before.flatMap (· ++ ['\n'])
    have htext : t = pre ++ (Row.chomp line ++ (ending ++ after.flatMap ('\n' :: ·))) := by
      rw [← List.append_assoc (Row.chomp line), ← hline, ← Row.intercalate_append_cons before line after,
        ← hlines]
      exact (intercalate_cut (by simp) t).symm
    have hread : row = (Row.read table (Text.size pre) (Row.chomp line)).1 := by
      rw [Row.parse, hlines, hrows, Nat.zero_add, ← hlength, Row.readAll,
        Row.getElem?_append_cons_self] at hrow
      exact (Option.some.inj hrow).symm
    have hslice : LineView.slice? (Source.ofText t) ⟨row.start, row.stop⟩ = some (Row.chomp line) := by
      rw [hread]
      change Text.slice? t (Text.size pre) (Text.size pre + Text.size (Row.chomp line)) = _
      rw [htext]
      exact Text.slice?_append _ _ _
    rw [LineView.lineText?, hspan, hrow, hlines, Row.getElem?_append_cons_self]
    exact hslice

namespace KeywordRegion

lemma leftOf_shift (t : Text) (n : Nat) (row : Row) : leftOf t (row.shift n) = leftOf t row := by
  have hcell : (row.shift n).cell? 0 = (row.cell? 0).map (Cell.shift n) := List.getElem?_map
  rw [leftOf, leftOf, hcell]
  cases row.cell? 0 with
  | none => rfl
  | some name => simp only [Option.map_some, Cell.shift, Row.shift, Nat.add_sub_add_left]

lemma replaceStartOf_shift (t : Text) (n : Nat) (row : Row) :
    replaceStartOf t (row.shift n) = replaceStartOf t row := by
  have hcell : (row.shift n).cell? 1 = (row.cell? 1).map (Cell.shift n) := List.getElem?_map
  rw [replaceStartOf, replaceStartOf, hcell, leftOf_shift]
  cases row.cell? 1 with
  | none => rfl
  | some keyword => simp only [Option.map_some, Cell.shift, Row.shift, Nat.add_sub_add_left]

lemma rightOf_shift (t : Text) (n : Nat) (row : Row) : rightOf t (row.shift n) = rightOf t row := by
  have hcells : (row.shift n).cells = row.cells.map (Cell.shift n) := rfl
  have hcomment : (row.shift n).comment.isSome = row.comment.isSome := Option.isSome_map
  have hstop : ∀ cell : Cell, (cell.shift n).stop - (row.shift n).start = cell.stop - row.start :=
    fun cell => Nat.add_sub_add_left n cell.stop row.start
  rcases hrow : row.cells with _ | ⟨name, _ | ⟨keyword, _ | ⟨argument, more⟩⟩⟩
  all_goals simp [rightOf, hcells, hcomment, hrow, hstop]

/-- The region counts from the start of the row, wherever that is. -/
lemma of?_shift (t : Text) (n : Nat) (row : Row) : of? t (row.shift n) = of? t row := by
  have hkind : (row.shift n).kind = row.kind := rfl
  rw [of?, of?, hkind, leftOf_shift, rightOf_shift, replaceStartOf_shift]

end KeywordRegion

namespace Source

variable {t : Text}

lemma row?_crlf (h : '\r' ∉ t) (n : Nat) :
    (ofText (Text.crlf t)).row? n = ((ofText t).row? n).map (Row.shift n) := by
  change (Row.parse (Text.crlf t))[n]? = ((Row.parse t)[n]?).map (Row.shift n)
  rw [Row.parse_crlf_eq h, List.getElem?_mapIdx]

lemma lineText?_crlf (h : '\r' ∉ t) (n : Nat) :
    LineView.lineText? (ofText (Text.crlf t)) n = LineView.lineText? (ofText t) n := by
  have hlines : ∀ line ∈ Row.lines t, '\r' ∉ line := fun line hline hr => h (Row.mem_of_mem_lines hline hr)
  rw [lineText?_ofText, lineText?_ofText, Row.lines_crlf, ← List.getElem?_map, ← List.getElem?_map,
    Row.map_chomp_withReturns hlines]

lemma region?_crlf (h : '\r' ∉ t) (n : Nat) :
    (ofText (Text.crlf t)).region? n = (ofText t).region? n := by
  rw [region?, region?, row?_crlf h, lineText?_crlf h]
  cases (ofText t).row? n with
  | none => rfl
  | some row => simp only [Option.map_some, Option.bind_some, KeywordRegion.of?_shift]

end Source

lemma KeywordDefinition.ofRow?_shift_zero (id : FileId) (n : Nat) (row : Row) (line : Nat) :
    ofRow? id (row.shift n) line = ofRow? id row line := by
  have hdown : ∀ d : KeywordDefinition, d.down 0 = d := by
    rintro ⟨name, origin, _ | line⟩
    · rfl
    · simp [down]
  have hshift := ofRow?_shift id n 0 row line
  rwa [Nat.zero_add, funext hdown, Option.map_id'] at hshift

/-- Rows that are moved, each as far as one likes, define the same keywords on the same lines. -/
lemma KeywordDefinition.filterMap_zipIdx_mapIdx (id : FileId) (moves : Nat → Nat) (k : Nat) (rows : List Row) :
    (((rows.mapIdx fun n row => row.shift (moves n)).zipIdx k).filterMap
      fun (row, line) => ofRow? id row line) =
      (rows.zipIdx k).filterMap fun (row, line) => ofRow? id row line := by
  induction rows generalizing moves k with
  | nil => rfl
  | cons row rows ih =>
    simp only [List.mapIdx_cons, List.zipIdx_cons, List.filterMap_cons, ofRow?_shift_zero,
      ih (fun n => moves (n + 1))]

lemma Import.filterMap_mapIdx (moves : Nat → Nat) (rows : List Row) :
    (rows.mapIdx fun n row => row.shift (moves n)).filterMap ofRow? = rows.filterMap ofRow? := by
  induction rows generalizing moves with
  | nil => rfl
  | cons row rows ih =>
    simp only [List.mapIdx_cons, List.filterMap_cons, ofRow?_shift, ih (fun n => moves (n + 1))]

/-- A text without carriage returns is read the same when one is put before every line feed: its rows have the
same lengths, kinds and texts and stand as many bytes further on as there are rows before them. So it defines
the same keywords, has the same imports, and a keyword region counts the same from the start of its row. -/
theorem Row.parse_crlf {t : Text} (h : '\r' ∉ t) :
    parse (Text.crlf t) = (parse t).mapIdx (fun n row => row.shift n) ∧
      (∀ id, KeywordDefinition.ofSource id (Source.ofText (Text.crlf t)) =
        KeywordDefinition.ofSource id (Source.ofText t)) ∧
      Import.ofSource (Source.ofText (Text.crlf t)) = Import.ofSource (Source.ofText t) ∧
      ∀ n, (Source.ofText (Text.crlf t)).region? n = (Source.ofText t).region? n := by
  have hrows : parse (Text.crlf t) = (parse t).mapIdx (fun n row => row.shift n) := parse_crlf_eq h
  refine ⟨hrows, fun id => ?_, ?_, Source.region?_crlf h⟩
  · simp only [KeywordDefinition.ofSource, Source.ofText, hrows]
    exact KeywordDefinition.filterMap_zipIdx_mapIdx id (fun n => n) 0 (parse t)
  · simp only [Import.ofSource, Source.ofText, hrows]
    exact Import.filterMap_mapIdx (fun n => n) (parse t)

/-- A resource is imported, a line is blank, and a step ends with a backslash, which does not protect the
carriage return. -/
theorem Row.parse_crlf_backslash :
    let t := "*** Settings ***\nResource  r\n\n*** Keywords ***\nOne\n  Two  # no\n  Thr\\\n".toList
    '\r' ∉ t ∧
      (parse (Text.crlf t)).map Row.start = [0, 18, 31, 33, 51, 56, 69, 77] ∧
      (KeywordDefinition.ofSource ⟨['f']⟩ (Source.ofText (Text.crlf t))).map KeywordDefinition.line = [some 4] ∧
      Import.ofSource (Source.ofText (Text.crlf t)) = [.resource ['r']] ∧
      (Source.ofText (Text.crlf t)).region? 5 = some ⟨2, 5, 2⟩ ∧
      (Source.ofText (Text.crlf t)).region? 6 = some ⟨2, 6, 2⟩ := by
  intro t
  have hreturn : '\r' ∉ t := by decide +kernel
  obtain ⟨hrows, hdefinitions, himports, hregions⟩ := parse_crlf hreturn
  refine ⟨hreturn, ?_, ?_, ?_, ?_, ?_⟩
  · rw [hrows]
    decide +kernel
  · rw [hdefinitions]
    decide +kernel
  · rw [himports]
    decide +kernel
  · rw [hregions]
    decide +kernel
  · rw [hregions]
    decide +kernel

end KeywordCompletion
