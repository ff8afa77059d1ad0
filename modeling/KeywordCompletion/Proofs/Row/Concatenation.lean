import Mathlib.Data.List.Basic
import KeywordCompletion.Import.Basic
import KeywordCompletion.Keyword.Definition
import KeywordCompletion.Proofs.Row.Lines

/-!
# Rows of texts that are put together

Behind a line feed a text is read as it is read alone, but for where its rows start and for the table that
is open before its first header. That table is the one of the last header before the line feed. A text that
opens a table of its own is read the same wherever it stands: `Row.parse_append_feed`.
-/

namespace KeywordCompletion

/-- The cell at another byte. -/
def Cell.shift (n : Nat) (c : Cell) : Cell := { c with start := n + c.start, stop := n + c.stop }

/-- The table that a row of this kind opens, if it is a header. -/
def RowKind.header? : RowKind → Option Table
  | .header table => some table
  | _ => none

/-- The definition further down in its file. -/
def KeywordDefinition.down (n : Nat) (d : KeywordDefinition) : KeywordDefinition :=
  { d with line := d.line.map (n + ·) }

namespace Row

/-- The row at another byte. -/
def shift (n : Nat) (r : Row) : Row :=
  { r with
    start := n + r.start
    cells := r.cells.map (Cell.shift n)
    comment := r.comment.map (Cell.shift n) }

/-- All of a row but its kind. -/
def layout (r : Row) : Nat × Nat × List Cell × Option Cell := (r.start, r.length, r.cells, r.comment)

/-- The rows of a text that stands below a table. -/
def parseBelow (table : Option Table) (t : Text) : List Row := readAll table 0 (lines t)

/-- The table of the last header among rows. -/
def lastTable? (rows : List Row) : Option Table := (rows.filterMap fun row => row.kind.header?).getLast?

/-- Whether the first row of a text that has any cell is a header. -/
def OpensTable (t : Text) : Prop :=
  ∃ row ∈ (parse t).find? fun row => !row.cells.isEmpty, row.kind.header?.isSome = true

instance (t : Text) : Decidable (OpensTable t) :=
  inferInstanceAs (Decidable (∃ row ∈ (parse t).find? fun row => !row.cells.isEmpty,
    row.kind.header?.isSome = true))

end Row

namespace Token

lemma cell?_add (n base : Nat) (ts : List Token) :
    cell? (n + base) ts = (cell? base ts).map (Cell.shift n) := by
  rw [cell?, cell?]
  cases trimBlanks ts with
  | nil => rfl
  | cons t more => simp [Cell.shift, Nat.add_assoc]

lemma comment?_add (n base : Nat) (ts : List Token) :
    comment? (n + base) ts = (comment? base ts).map (Cell.shift n) := by
  cases ts with
  | nil => rfl
  | cons t more => simp [comment?, Cell.shift, Nat.add_assoc]

lemma emptyFirst_add (n base : Nat) (parts : List (List Token)) :
    emptyFirst (n + base) parts = (emptyFirst base parts).map (Cell.shift n) := by
  rw [emptyFirst.eq_def, emptyFirst.eq_def]
  split <;> rfl

end Token

lemma splitCells_add (n base : Nat) (t : Text) :
    splitCells t (n + base) =
      ((splitCells t base).1.map (Cell.shift n), (splitCells t base).2.map (Cell.shift n)) := by
  have hcells : Token.cell? (n + base) = fun ts => (Token.cell? base ts).map (Cell.shift n) :=
    funext (Token.cell?_add n base)
  simp only [splitCells, Token.emptyFirst_add, Token.comment?_add, hcells, List.map_append,
    List.map_filterMap]

namespace Row

variable {table : Option Table} {t : Text}

lemma read_add (table : Option Table) (n start : Nat) (line : Text) :
    read table (n + start) line = ((read table start line).1.shift n, (read table start line).2) := by
  have hkind : RowKind.classify table ((splitCells line start).1.map (Cell.shift n))
      ((splitCells line start).2.map (Cell.shift n)) =
        RowKind.classify table (splitCells line start).1 (splitCells line start).2 := by
    refine RowKind.classify_congr ?_ ?_
    · rw [List.map_map]
      rfl
    · rw [Option.map_map]
      rfl
  rw [read_eq, read_eq, splitCells_add]
  simp only [hkind]
  rfl

lemma readAll_add (table : Option Table) (n start : Nat) (lines : List Text) :
    readAll table (n + start) lines = (readAll table start lines).map (shift n) := by
  induction lines generalizing table start with
  | nil => rfl
  | cons line lines ih =>
    rw [readAll, readAll, read_add]
    simp only [List.map_cons]
    rw [Nat.add_assoc n, Nat.add_assoc n, ih]

lemma header?_ofTable (named : Bool) (table : Table) : (RowKind.ofTable named table).header? = none := by
  cases table <;> cases named <;> rfl

/-- A row whose first cell does not start with a star is no header. -/
lemma classify_of_not_star {first : Cell} (h : first.value.head? ≠ some '*') (table : Option Table)
    (cells : List Cell) (remark : Option Cell) :
    (RowKind.classify table (first :: cells) remark).1.header? = none ∧
      (RowKind.classify table (first :: cells) remark).2 = table := by
  simp only [RowKind.classify, if_neg h]
  split
  · exact ⟨rfl, rfl⟩
  · cases table with
    | none => exact ⟨rfl, rfl⟩
    | some current =>
      dsimp only
      split
      · exact ⟨rfl, rfl⟩
      · split
        · exact ⟨rfl, rfl⟩
        · exact ⟨header?_ofTable _ current, rfl⟩

/-- The table below a row is the one that it opens, else the one above it. -/
lemma classify_snd (table : Option Table) (cells : List Cell) (remark : Option Cell) :
    (RowKind.classify table cells remark).2 =
      (RowKind.classify table cells remark).1.header?.or table := by
  cases cells with
  | nil => cases remark <;> rfl
  | cons first cells =>
    by_cases hstar : first.value.head? = some '*'
    · simp only [RowKind.classify, if_pos hstar]
      rfl
    · obtain ⟨hheader, htable⟩ := classify_of_not_star hstar table cells remark
      rw [hheader, htable, Option.none_or]

lemma lastTable?_cons (row : Row) (rows : List Row) :
    lastTable? (row :: rows) = (lastTable? rows).or row.kind.header? := by
  rw [lastTable?, lastTable?, List.filterMap_cons]
  cases row.kind.header? with
  | none => rw [Option.or_none]
  | some table =>
    rw [List.getLast?_cons]
    cases (rows.filterMap fun row => row.kind.header?).getLast? <;> rfl

/-- Rows are read one after the other; what is read of a row later is the table of the last header. -/
lemma readAll_append (table : Option Table) (start : Nat) (before after : List Text) :
    readAll table start (before ++ after) = readAll table start before ++
      readAll ((lastTable? (readAll table start before)).or table)
        (start + Text.size (before.flatMap (· ++ ['\n']))) after := by
  induction before generalizing table start with
  | nil => rfl
  | cons line before ih =>
    have htable : (read table start (chomp line)).2 =
        (read table start (chomp line)).1.kind.header?.or table := classify_snd _ _ _
    rw [List.cons_append, readAll, readAll, size_feeds_cons]
    simp only
    rw [ih, List.cons_append, lastTable?_cons, Option.or_assoc, htable]

lemma flatMap_feed_lines (t : Text) : (lines t).flatMap (· ++ ['\n']) = t ++ ['\n'] := by
  have hjoin : ∀ parts : List Text, parts ≠ [] →
      parts.flatMap (· ++ ['\n']) = ['\n'].intercalate parts ++ ['\n'] := by
    intro parts hne
    obtain ⟨before, last, rfl⟩ := (List.eq_nil_or_concat' parts).resolve_left hne
    rw [intercalate_append_cons, List.flatMap_append]
    simp
  rw [lines, hjoin _ (cut_ne_nil _ t), intercalate_cut (by simp) t]

/-- Whatever table is open above a line, its cells and its comment are the same. -/
lemma map_layout_readAll (table table' : Option Table) (start : Nat) (lines : List Text) :
    (readAll table' start lines).map layout = (readAll table start lines).map layout := by
  induction lines generalizing table table' start with
  | nil => rfl
  | cons line lines ih =>
    rw [readAll, readAll]
    simp only [List.map_cons]
    rw [ih (read table start (chomp line)).2]
    rfl

/-- Up to a header that is the first row with any cell nothing depends on the table above. -/
lemma readAll_of_header {start : Nat} {lines : List Text} {row : Row}
    (hfind : (readAll table start lines).find? (fun row => !row.cells.isEmpty) = some row)
    (hheader : row.kind.header?.isSome = true) (table' : Option Table) :
    readAll table' start lines = readAll table start lines := by
  induction lines generalizing start with
  | nil => rfl
  | cons line lines ih =>
    rw [readAll, read_eq] at hfind
    rw [readAll, readAll, read_eq, read_eq]
    generalize splitCells (chomp line) start = parts at hfind ⊢
    obtain ⟨cells, remark⟩ := parts
    cases cells with
    | nil =>
      have hskip : (readAll table (start + Text.size line + 1) lines).find?
          (fun row => !row.cells.isEmpty) = some row := by
        simpa [RowKind.classify] using hfind
      simp only [RowKind.classify, ih hskip]
    | cons first cells =>
      obtain rfl := Option.some.inj hfind
      have hstar : first.value.head? = some '*' := by
        by_contra hstar
        rw [(classify_of_not_star hstar table cells remark).1] at hheader
        cases hheader
      simp only [RowKind.classify, if_pos hstar]

lemma parseBelow_of_opensTable (h : OpensTable t) (table : Option Table) : parseBelow table t = parse t := by
  obtain ⟨row, hfind, hheader⟩ := h
  exact readAll_of_header hfind hheader table

/-- Behind a line feed a text is read below the last table before the line feed. -/
lemma parse_append (a b : Text) :
    parse (a ++ '\n' :: b) = parse a ++ (parseBelow (lastTable? (parse a)) b).map (shift (Text.size a + 1)) := by
  have hlines : lines (a ++ '\n' :: b) = lines a ++ lines b := cut_append_cons (by simp) a b
  have hsize : Text.size ((lines a).flatMap (· ++ ['\n'])) = Text.size a + 1 := by
    rw [flatMap_feed_lines, Text.size_append]
    rfl
  rw [parse, hlines, readAll_append, hsize, Option.or_none, Nat.zero_add, parseBelow, ← readAll_add,
    Nat.add_zero, parse]

end Row

lemma KeywordDefinition.ofRow?_shift (id : FileId) (n k : Nat) (row : Row) (line : Nat) :
    ofRow? id (row.shift n) (k + line) = (ofRow? id row line).map (down k) := by
  have hcell : (row.shift n).cell? 0 = (row.cell? 0).map (Cell.shift n) := List.getElem?_map
  have hkind : (row.shift n).kind = row.kind := rfl
  rw [ofRow?, ofRow?, hkind, hcell]
  split
  · cases row.cell? 0 with
    | none => rfl
    | some cell =>
      have hempty : (cell.shift n).isEmpty = cell.isEmpty := rfl
      simp only [Option.map_some, hempty]
      split <;> rfl
  · rfl

lemma KeywordDefinition.filterMap_zipIdx_shift (id : FileId) (n k : Nat) (rows : List Row) :
    (((rows.map (Row.shift n)).zipIdx k).filterMap fun (row, line) => ofRow? id row line) =
      (rows.zipIdx.filterMap fun (row, line) => ofRow? id row line).map (down k) := by
  rw [List.zipIdx_map, List.zipIdx_eq_map_add, List.filterMap_map, List.filterMap_map, List.map_filterMap]
  exact List.filterMap_congr fun (row : Row × Nat) _ => ofRow?_shift id n k row.1 row.2

lemma Import.ofRow?_shift (n : Nat) (row : Row) : ofRow? (row.shift n) = ofRow? row := by
  have hcell : ∀ column, (row.shift n).cell? column = (row.cell? column).map (Cell.shift n) :=
    fun _ => List.getElem?_map
  have hkind : (row.shift n).kind = row.kind := rfl
  rw [ofRow?, ofRow?, hkind, hcell, hcell]
  cases row.cell? 0 <;> cases row.cell? 1 <;> rfl

namespace Row

/-- Behind a line feed a text has the rows that it has alone, moved, with kinds that depend on what stands
before only by its last table. If the text opens a table itself, then they are the kinds that it has alone,
and so its definitions and imports follow those of the text before. -/
theorem parse_append_feed (a b : Text) :
    parse (a ++ '\n' :: b) =
        parse a ++ (parseBelow (lastTable? (parse a)) b).map (shift (Text.size a + 1)) ∧
      (parseBelow (lastTable? (parse a)) b).map layout = (parse b).map layout ∧
      (OpensTable b →
        parse (a ++ '\n' :: b) = parse a ++ (parse b).map (shift (Text.size a + 1)) ∧
        (∀ id, KeywordDefinition.ofSource id (Source.ofText (a ++ '\n' :: b)) =
          KeywordDefinition.ofSource id (Source.ofText a) ++
            (KeywordDefinition.ofSource id (Source.ofText b)).map
              (KeywordDefinition.down (parse a).length)) ∧
        Import.ofSource (Source.ofText (a ++ '\n' :: b)) =
          Import.ofSource (Source.ofText a) ++ Import.ofSource (Source.ofText b)) := by
  refine ⟨parse_append a b, map_layout_readAll none _ 0 _, fun h => ?_⟩
  have hrows : parse (a ++ '\n' :: b) = parse a ++ (parse b).map (shift (Text.size a + 1)) := by
    rw [parse_append, parseBelow_of_opensTable h]
  refine ⟨hrows, fun id => ?_, ?_⟩
  · simp only [KeywordDefinition.ofSource, Source.ofText, hrows]
    rw [List.zipIdx_append, List.filterMap_append, Nat.zero_add,
      KeywordDefinition.filterMap_zipIdx_shift]
  · simp only [Import.ofSource, Source.ofText, hrows, List.filterMap_append, List.filterMap_map]
    exact congrArg _ (List.filterMap_congr fun row _ => Import.ofRow?_shift _ row)

/-- The second text opens with a comment and a header; its keyword and its import follow those of the first
one, whose last line ends with a carriage return. -/
theorem parse_append_feed_settings :
    let a := "*** Settings ***\nResource  r\n*** Keywords ***\nOne\r".toList
    let b := "# more\n*** Settings ***\nLibrary  L\n*** Keywords ***\nTwo".toList
    OpensTable b ∧
      (KeywordDefinition.ofSource ⟨['f']⟩ (Source.ofText (a ++ '\n' :: b))).map KeywordDefinition.line =
        [some 3, some 8] ∧
      Import.ofSource (Source.ofText (a ++ '\n' :: b)) = [.resource ['r'], .library ['L']] := by
  intro a b
  have hopens : OpensTable b := by decide +kernel
  obtain ⟨-, hdefinitions, himports⟩ := (parse_append_feed a b).2.2 hopens
  refine ⟨hopens, ?_, ?_⟩
  · rw [hdefinitions]
    decide +kernel
  · rw [himports]
    decide +kernel

end Row

end KeywordCompletion
