import KeywordCompletion.Proofs.Row.Columns
import KeywordCompletion.Proofs.Row.Kinds
import KeywordCompletion.Row.Basic

/-!
# Texts of which one line is replaced

What stands in a row depends on its line and on the table that is open before it. A line may be replaced
by another one that leaves the same table open, and the rows of all other lines hold what they held.
-/

namespace KeywordCompletion

/-- What a row is and what stands in it, wherever the row starts. -/
def Row.content (r : Row) : RowKind × List Text × Option Text :=
  (r.kind, r.cells.map Cell.value, r.comment.map Cell.value)

/-- A row with a keyword in its second cell and all else as in another row. -/
structure Row.WithKeyword (row : Row) (keyword : Text) (row' : Row) : Prop where
  kind : row'.kind = row.kind
  name : row'.cell? 0 = row.cell? 0
  keyword : (row'.cell? 1).map Cell.value = some keyword
  arguments : (row'.cells.drop 2).map Cell.value = (row.cells.drop 2).map Cell.value
  comment : row'.comment.map Cell.value = row.comment.map Cell.value

namespace Row

variable {table : Option Table} {t line line' : Text} {before after : List Text}

lemma read_content (table : Option Table) (start start' : Nat) (line : Text) :
    (read table start' line).1.content = (read table start line).1.content ∧
      (read table start' line).2 = (read table start line).2 := by
  have hvalues := @map_value_splitCells start start' line
  have hkind := @RowKind.classify_congr table _ _ _ _ hvalues.1 hvalues.2
  simp only [read, content, hvalues.1, hvalues.2, hkind, and_self]

lemma read_eq (table : Option Table) (start : Nat) (line : Text) :
    read table start line =
      (⟨start, Text.size line, (splitCells line start).1, (splitCells line start).2,
        (RowKind.classify table (splitCells line start).1 (splitCells line start).2).1⟩,
        (RowKind.classify table (splitCells line start).1 (splitCells line start).2).2) := rfl

/-- A line with another keyword in a row that calls one leaves the same table open. -/
lemma read_of_keyword {start : Nat} {name keyword : Cell} {cells : List Cell} {comment : Option Cell}
    (hcalls : (read table start line).1.kind.isKeywordCall = true)
    (hname : (read table start line).1.cell? 0 = some name)
    (hsplit : splitCells line' start = (name :: keyword :: cells, comment))
    (hcells : cells.map Cell.value = ((read table start line).1.cells.drop 2).map Cell.value)
    (hcomment : comment.map Cell.value = (read table start line).1.comment.map Cell.value)
    (hne : keyword.value ≠ []) (hdots : keyword.value ≠ ['.', '.', '.']) :
    (read table start line').2 = (read table start line).2 ∧
      (read table start line).1.WithKeyword keyword.value (read table start line').1 := by
  obtain ⟨more, hmore⟩ := List.head?_eq_some_iff.1 (List.head?_eq_getElem?.trans hname)
  have hfirst : (splitCells line start).1 = name :: more := hmore
  have hkind : RowKind.classify table (splitCells line' start).1 (splitCells line' start).2 =
      RowKind.classify table (splitCells line start).1 (splitCells line start).2 := by
    rw [hsplit, hfirst]
    refine RowKind.classify_of_keyword ?_ hne hdots
    rw [← hfirst]
    exact hcalls
  have hcells' : (read table start line').1.cells = name :: keyword :: cells := by
    rw [read_eq, hsplit]
  have hcomment' : (read table start line').1.comment = comment := by
    rw [read_eq, hsplit]
  have htable : (read table start line').2 = (read table start line).2 := by
    rw [read_eq, read_eq, hkind]
  have hsame : (read table start line').1.kind = (read table start line).1.kind := by
    rw [read_eq, read_eq, hkind]
  refine ⟨htable, hsame, ?_, ?_, ?_, ?_⟩
  · rw [hname, cell?, hcells']
    rfl
  · rw [cell?, hcells']
    rfl
  · rw [hcells']
    exact hcells
  · rw [hcomment']
    exact hcomment

/-- What stands in rows does not depend on where the first of them starts. -/
lemma map_content_readAll (table : Option Table) (start start' : Nat) (lines : List Text) :
    (readAll table start' lines).map content = (readAll table start lines).map content := by
  induction lines generalizing table start start' with
  | nil => rfl
  | cons line lines ih =>
    have hread := read_content table start start' (chomp line)
    rw [readAll, readAll]
    simp only [List.map_cons, hread.1, hread.2]
    rw [ih _ (start + Text.size line + 1) (start' + Text.size line + 1)]

lemma size_feeds_cons (start : Nat) (line : Text) (before : List Text) :
    start + Text.size ((line :: before).flatMap (· ++ ['\n'])) =
      start + Text.size line + 1 + Text.size (before.flatMap (· ++ ['\n'])) := by
  rw [List.flatMap_cons, Text.size_append, Text.size_append]
  have hfeed : Text.size ['\n'] = 1 := rfl
  omega

/-- The rows before a line are read first; they leave a table open. -/
lemma exists_readAll_append (table : Option Table) (start : Nat) (before : List Text) :
    ∃ rows table', rows.length = before.length ∧ ∀ more, readAll table start (before ++ more) =
      rows ++ readAll table' (start + Text.size (before.flatMap (· ++ ['\n']))) more := by
  induction before generalizing table start with
  | nil => exact ⟨[], table, rfl, fun more => rfl⟩
  | cons line before ih =>
    obtain ⟨rows, table', hlength, hrows⟩ :=
      ih (read table start (chomp line)).2 (start + Text.size line + 1)
    refine ⟨(read table start (chomp line)).1 :: rows, table', by simp [hlength], fun more => ?_⟩
    rw [List.cons_append, readAll, size_feeds_cons]
    simp only [hrows more, List.cons_append]

lemma intercalate_append_cons (before : List Text) (line : Text) (after : List Text) :
    ['\n'].intercalate (before ++ line :: after) =
      before.flatMap (· ++ ['\n']) ++ (line ++ after.flatMap ('\n' :: ·)) := by
  induction before with
  | nil =>
    induction after generalizing line with
    | nil => simp
    | cons next after ih =>
      have h := ih next
      rw [List.nil_append] at h ⊢
      rw [List.intercalate_cons_cons, h]
      simp
  | cons first before ih =>
    obtain ⟨next, more, hnext⟩ : ∃ next more, before ++ line :: after = next :: more :=
      List.exists_cons_of_ne_nil (by simp)
    rw [hnext] at ih
    rw [List.cons_append, hnext, List.intercalate_cons_cons, ih]
    simp

lemma lines_intercalate {lines' : List Text} (hne : lines' ≠ []) (h : ∀ line ∈ lines', '\n' ∉ line) :
    lines (['\n'].intercalate lines') = lines' := by
  refine cut_intercalate (by rfl) hne ?_
  intro line hline c hc
  have hfeed : c ≠ '\n' := by
    rintro rfl
    exact h line hline hc
  simpa using hfeed

lemma not_mem_of_mem_lines (h : line ∈ lines t) : '\n' ∉ line := by
  intro hfeed
  have hcut := not_isCut_of_mem_cut h '\n' hfeed
  simp at hcut

lemma length_parse (t : Text) : (parse t).length = (lines t).length := by
  have hlength : ∀ lines table start, (readAll table start lines).length = lines.length := by
    intro lines
    induction lines with
    | nil => exact fun _ _ => rfl
    | cons line lines ih =>
      intro table start
      rw [readAll]
      simp only [List.length_cons, ih]
  exact hlength _ _ _

lemma exists_read_of_mem_parse {row : Row} (h : row ∈ parse t) :
    ∃ table start line, line ∈ lines t ∧ row = (read table start (chomp line)).1 := by
  have hmem : ∀ lines table start, row ∈ readAll table start lines →
      ∃ table start line, line ∈ lines ∧ row = (read table start (chomp line)).1 := by
    intro lines
    induction lines with
    | nil => exact fun _ _ h => by simp [readAll] at h
    | cons line lines ih =>
      intro table start h
      rw [readAll] at h
      rcases List.mem_cons.1 h with h | h
      · exact ⟨table, start, line, List.mem_cons_self, h⟩
      · obtain ⟨table', start', line', hline', hrow⟩ := ih _ _ h
        exact ⟨table', start', line', List.mem_cons_of_mem _ hline', hrow⟩
  exact hmem _ _ _ h

/-- Whether a line may have this text and this ending: a carriage return at its end is its ending. -/
def EndsLine (body ending : Text) : Prop :=
  ending = [] ∧ body.getLast? ≠ some '\r' ∨ ending = ['\r']

lemma exists_chomp_append (line : Text) :
    ∃ ending, line = chomp line ++ ending ∧ EndsLine (chomp line) ending := by
  by_cases h : line.getLast? = some '\r'
  · refine ⟨['\r'], ?_, Or.inr rfl⟩
    obtain ⟨before, rfl⟩ := List.getLast?_eq_some_iff.1 h
    simp [chomp]
  · have hchomp : chomp line = line := by rw [chomp, if_neg h]
    exact ⟨[], by rw [hchomp, List.append_nil], Or.inl ⟨rfl, by rwa [hchomp]⟩⟩

lemma chomp_append {body ending : Text} (h : EndsLine body ending) : chomp (body ++ ending) = body := by
  rcases h with ⟨rfl, hlast⟩ | rfl
  · rw [List.append_nil, chomp, if_neg hlast]
  · simp [chomp]

lemma chomp_of_notMem {line : Text} (h : '\r' ∉ line) : chomp line = line := by
  have hlast : line.getLast? ≠ some '\r' := fun hr => h (List.mem_of_getLast? hr)
  rw [chomp, if_neg hlast]

lemma EndsLine.feed {body ending : Text} (h : EndsLine body ending) : '\n' ∉ ending := by
  rcases h with ⟨rfl, -⟩ | rfl <;> simp

lemma mem_of_mem_chomp {c : Char} (h : c ∈ chomp line) : c ∈ line := by
  obtain ⟨ending, hline, -⟩ := exists_chomp_append line
  rw [hline]
  exact List.mem_append_left _ h

/-- Two texts with as many lines, of which all but one are the same and hold the same. -/
structure SameElsewhere (t t' : Text) (n : Nat) : Prop where
  length_eq : (parse t').length = (parse t).length
  line_eq : ∀ k, k ≠ n → (lines t')[k]? = (lines t)[k]?
  content_eq : ∀ k, k ≠ n → ((parse t')[k]?).map content = ((parse t)[k]?).map content

/-- A text around the line of one of its rows: what becomes of the rows when another line stands there
that leaves the same table open. -/
structure Place (t : Text) (n : Nat) (row : Row) (table : Option Table) (pre body ending post : Text) :
    Prop where
  text_eq : t = pre ++ (body ++ (ending ++ post))
  row_eq : row = (read table (Text.size pre) body).1
  feed : '\n' ∉ body
  ends : EndsLine body ending
  replaced : ∀ body', '\n' ∉ body' → EndsLine body' ending →
    (read table (Text.size pre) body').2 = (read table (Text.size pre) body).2 →
    SameElsewhere t (pre ++ (body' ++ (ending ++ post))) n ∧
      (parse (pre ++ (body' ++ (ending ++ post))))[n]? = some (read table (Text.size pre) body').1

lemma getElem?_append_cons_ne {α : Type} {before after : List α} {x y : α} {n : Nat}
    (h : n ≠ before.length) : (before ++ x :: after)[n]? = (before ++ y :: after)[n]? := by
  by_cases hlt : n < before.length
  · rw [List.getElem?_append_left hlt, List.getElem?_append_left hlt]
  · obtain ⟨k, hk⟩ : ∃ k, n - before.length = k + 1 := ⟨n - before.length - 1, by omega⟩
    rw [List.getElem?_append_right (by omega), List.getElem?_append_right (by omega), hk]
    rfl

lemma getElem?_append_cons_self {α : Type} (before : List α) (x : α) (after : List α) :
    (before ++ x :: after)[before.length]? = some x := by
  rw [List.getElem?_append_right (Nat.le_refl _), Nat.sub_self]
  rfl

lemma exists_line_of_row {n : Nat} {row : Row} (h : (parse t)[n]? = some row) :
    ∃ before line after, lines t = before ++ line :: after ∧ before.length = n := by
  obtain ⟨hlt, -⟩ := List.getElem?_eq_some_iff.1 h
  rw [length_parse] at hlt
  refine ⟨(lines t).take n, (lines t)[n], (lines t).drop (n + 1), ?_, ?_⟩
  · rw [List.getElem_cons_drop, List.take_append_drop]
  · rw [List.length_take]
    omega

lemma lines_replace (hlines : lines t = before ++ line :: after) (hfeed : '\n' ∉ line') :
    lines (before.flatMap (· ++ ['\n']) ++ (line' ++ after.flatMap ('\n' :: ·))) =
      before ++ line' :: after := by
  have hmem : ∀ l ∈ before ++ line :: after, '\n' ∉ l := by
    intro l hl
    rw [← hlines] at hl
    exact not_mem_of_mem_lines hl
  rw [← intercalate_append_cons before line' after]
  apply lines_intercalate (by simp)
  intro l hl
  rcases List.mem_append.1 hl with hl | hl
  · exact hmem l (List.mem_append_left _ hl)
  rcases List.mem_cons.1 hl with rfl | hl
  · exact hfeed
  · exact hmem l (List.mem_append_right _ (List.mem_cons_of_mem _ hl))

/-- Every row stands in its text so. -/
theorem exists_place {n : Nat} {row : Row} (hrow : (parse t)[n]? = some row) :
    ∃ table pre body ending post, Place t n row table pre body ending post := by
  obtain ⟨before, line, after, hlines, rfl⟩ := exists_line_of_row hrow
  let pre := before.flatMap (· ++ ['\n'])
  let post := after.flatMap ('\n' :: ·)
  have htext : t = pre ++ (line ++ post) := by
    rw [← intercalate_append_cons before line after, ← hlines]
    exact (intercalate_cut (by simp) t).symm
  obtain ⟨rows, table, hlength, hrows⟩ := exists_readAll_append none 0 before
  rw [Nat.zero_add] at hrows
  have hparse : ∀ line' u, lines u = before ++ line' :: after → parse u = rows ++
      (read table (Text.size pre) (chomp line')).1 :: readAll (read table (Text.size pre) (chomp line')).2
        (Text.size pre + Text.size line' + 1) after := by
    intro line' u hu
    rw [parse, hu, hrows]
    rfl
  obtain ⟨ending, hline, hends⟩ := exists_chomp_append line
  have hfeed : '\n' ∉ line := by
    apply not_mem_of_mem_lines (t := t)
    rw [hlines]
    simp
  refine ⟨table, pre, chomp line, ending, post, ?_, ?_, ?_, hends, ?_⟩
  · rw [htext, ← List.append_assoc (chomp line), ← hline]
  · rw [hparse line t hlines, ← hlength, getElem?_append_cons_self] at hrow
    exact (Option.some.inj hrow).symm
  · intro h
    exact hfeed (mem_of_mem_chomp h)
  · intro body' hbody' hends' htable
    have hfeed' : '\n' ∉ body' ++ ending := by
      rw [List.mem_append, not_or]
      exact ⟨hbody', hends'.feed⟩
    have hlines' := lines_replace hlines hfeed'
    rw [List.append_assoc body'] at hlines'
    have hparse' := hparse _ _ hlines'
    rw [chomp_append hends', htable] at hparse'
    refine ⟨⟨?_, fun k hk => ?_, fun k hk => ?_⟩, ?_⟩
    · rw [length_parse, length_parse, hlines', hlines]
      simp
    · rw [hlines', hlines]
      exact getElem?_append_cons_ne hk
    · rw [hparse', hparse line t hlines, ← List.getElem?_map, ← List.getElem?_map, List.map_append,
        List.map_append, List.map_cons, List.map_cons,
        map_content_readAll _ (Text.size pre + Text.size line + 1)]
      apply getElem?_append_cons_ne
      rwa [List.length_map, hlength]
    · rw [hparse', ← hlength]
      exact getElem?_append_cons_self rows _ _

end Row

end KeywordCompletion
