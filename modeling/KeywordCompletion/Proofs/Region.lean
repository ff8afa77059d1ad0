import KeywordCompletion.Proofs.Row.Fields
import KeywordCompletion.Region

/-!
# What is replaced in a row

Where a separator follows the name, an accepted keyword replaces a stretch that starts behind that
separator. Any text that fills a cell makes the keyword cell there, and the cells and the comment behind
it stay as they are.
-/

namespace KeywordCompletion.KeywordRegion

open Token

variable {base cursor : Nat} {t head gap rest before old after new : Text} {name : Cell} {row : Row}
  {region : KeywordRegion}

lemma contains_iff : region.contains cursor = true ↔ region.left ≤ cursor ∧ cursor ≤ region.right := by
  simp [contains]

/-- A row is divided so that every text that fills a cell is the keyword cell when it stands in the
middle. -/
def Frames (row : Row) (name : Cell) (before after : Text) : Prop :=
  ∀ new, FillsCell new → (∀ x ∈ (lex new).getLast?, x.text ≠ ['\\']) → ∃ cells comment,
    splitCells (before ++ (new ++ after)) row.start =
      (name :: ⟨new, row.start + Text.size before, row.start + Text.size before + Text.size new⟩ :: cells,
        comment) ∧
    cells.map Cell.value = (row.cells.drop 2).map Cell.value ∧
    comment.map Cell.value = row.comment.map Cell.value

lemma frames_of_nameColumn (h : NameColumn row.start head gap name) (hafter : EndsCell after)
    (hcells : (row.cells.drop 2).map Cell.value = (cellsIn 0 (beyond 0 after)).map Cell.value)
    (hcomment : row.comment.map Cell.value = (commentIn 0 (beyond 0 after)).map Cell.value) :
    Frames row name (head ++ gap) after := by
  intro new hnew hlone
  have hhead : ∀ c ∈ (new ++ after).head?, Text.isBlank c = false := by
    obtain ⟨c, more, rfl⟩ := List.exists_cons_of_ne_nil hnew.ne_nil
    exact hnew.head?_not_isBlank
  have hjoins := joins_of_fillsCell hnew hlone hafter
  let beyondNew := beyond (Text.size head + Text.size gap + Text.size new) after
  refine ⟨cellsIn row.start beyondNew, commentIn row.start beyondNew, ?_, ?_, ?_⟩
  · rw [List.append_assoc, h.splitCells_eq hhead, cellsIn_of_fillsCell hnew hafter hjoins,
      commentIn_of_fillsCell hnew hafter hjoins, Text.size_append]
  · rw [hcells]
    exact map_value_cellsIn_beyond _ _ _
  · rw [hcomment]
    exact map_value_commentIn_beyond _ _ _

/-- The region starts behind the separator that follows the name. -/
lemma leftOf_of_isSeparatorRun (hname : row.cell? 0 = some name)
    (hstop : name.stop = row.start + Text.size head) (hblank : ∀ c ∈ gap, Text.isBlank c = true)
    (hrun : isSeparatorRun gap = true) (hrest : ∀ c ∈ rest.head?, Text.isBlank c = false) :
    leftOf (head ++ (gap ++ rest)) row = Text.size head + Text.size gap := by
  have hsize : Text.size gap = gap.length := Text.size_of_blanks hblank
  have hlength : 0 < gap.length := by
    rw [List.length_pos_iff]
    rintro rfl
    cases hrun
  have hdrop : Text.drop? (head ++ (gap ++ rest)) (Text.size head) = some (gap ++ rest) :=
    Text.drop?_size_append _ _
  have htake : (gap ++ rest).takeWhile Text.isBlank = gap := (Text.takeWhile_append_eq_iff.2 ⟨hblank, hrest⟩).1
  have hstop' : name.stop - row.start = Text.size head := by omega
  have hsep : separatorAt (head ++ (gap ++ rest)) (Text.size head) = some gap.length := by
    rw [separatorAt, hdrop]
    simp [htake, hrun]
  have hinside : ¬ Text.size (head ++ (gap ++ rest)) ≤ Text.size head := by
    simp only [Text.size_append]
    omega
  rw [leftOf, hname]
  simp only
  rw [hstop', skipSeparator, if_neg hinside, hsep, hsize]

lemma leftOf_eq (h : NameColumn row.start head gap name) (hname : row.cell? 0 = some name)
    (hrest : ∀ c ∈ rest.head?, Text.isBlank c = false) :
    leftOf (head ++ (gap ++ rest)) row = Text.size head + Text.size gap :=
  leftOf_of_isSeparatorRun hname h.stop h.isSeparatorRun_gap.1 h.isSeparatorRun_gap.2 hrest

lemma replaceStartOf_eq {m : Nat} {keyword : Cell} {cells : List Cell}
    (hcells : row.cells = name :: keyword :: cells) (hstart : keyword.start = row.start + m) :
    replaceStartOf t row = m := by
  have hkeyword : row.cell? 1 = some keyword := by simp [Row.cell?, hcells]
  rw [replaceStartOf, hkeyword]
  simp only
  omega

lemma rightOf_eq_size (hcells : row.cells.length ≤ 2) (hcomment : row.comment = none) :
    rightOf t row = Text.size t := by
  rw [rightOf]
  split
  · rename_i hmore
    simp [hmore] at hcells
  · simp [hcomment]

lemma rightOf_eq_stop {keyword : Cell} {cells : List Cell} (hcells : row.cells = name :: keyword :: cells)
    (hmore : cells = [] → row.comment.isSome = true) : rightOf t row = keyword.stop - row.start := by
  rw [rightOf, hcells]
  cases cells with
  | nil => simp [hmore rfl]
  | cons c cells => rfl

/-- Where the row ends with the keyword cell, all that stands behind the separator is replaced. -/
lemma frames_of_length_le (h : NameColumn row.start head gap name) (hcells : row.cells.length ≤ 2)
    (hcomment : row.comment = none) : Frames row name (head ++ gap) [] := by
  refine frames_of_nameColumn h endsCell_nil ?_ ?_
  · rw [List.drop_eq_nil_of_le hcells]
    simp [beyond]
  · rw [hcomment]
    simp [beyond]

/-- Where a comment stands behind the name, the region ends with the name. -/
lemma rightOf_of_opensComment {m : Nat} {x : Token} {xs : List Token}
    (hcells : row.cells = name :: cellsIn row.start (lexFrom m rest))
    (hcomment : row.comment = commentIn row.start (lexFrom m rest))
    (hx : lexFrom m rest = x :: xs) (hopens : x.opensComment = true) :
    rightOf t row = name.stop - row.start := by
  have hnone : cellsIn row.start ([] ++ x :: xs) = [] :=
    cellsIn_of_opensComment (by simp) (by simp) hopens
  have hsome : row.comment.isSome = true := by
    rw [hcomment, hx, commentIn, cutComment]
    simp [hopens, comment?]
  rw [hx, ← List.nil_append (x :: xs), hnone] at hcells
  simp [rightOf, hcells, hsome]

/-- The region of a row with a name column, where the cursor is in it, starts behind the separator and
ends where it can be replaced by any cell. -/
theorem exists_frames (hrow : splitCells t row.start = (row.cells, row.comment))
    (hregion : of? t row = some region) (hcursor : region.contains cursor = true)
    (hname : row.cell? 0 = some name)
    (hsep : (separatorAt t (name.stop - row.start)).isSome = true) :
    ∃ before old after, t = before ++ (old ++ after) ∧ region.replaceStart = Text.size before ∧
      region.right = Text.size before + Text.size old ∧ Frames row name before after := by
  have hfirst : (splitCells t row.start).1.head? = some name := by
    rw [hrow, ← hname]
    exact List.head?_eq_getElem?
  obtain ⟨head, gap, rest, ht, h, hrest⟩ := exists_nameColumn hfirst hsep
  have hleft : leftOf t row = Text.size head + Text.size gap := by
    rw [ht]
    exact leftOf_eq h hname hrest
  have hsize : Text.size t = Text.size (head ++ gap) + Text.size rest := by
    rw [ht, ← List.append_assoc, Text.size_append]
  have hread := h.splitCells_eq hrest
  rw [← ht, hrow, Prod.mk.injEq] at hread
  obtain ⟨hcells, hcomment⟩ := hread
  rw [of?] at hregion
  split at hregion
  · cases hregion
    simp only [contains_iff, hleft] at hcursor
    rw [← Text.size_append] at hcells hcomment hleft hcursor
    cases remainder (Text.size (head ++ gap)) hrest with
    | nothing hnil =>
      rw [hnil, lexFrom_nil, cellsIn_nil] at hcells
      rw [hnil, lexFrom_nil, commentIn_nil] at hcomment
      have hlength : row.cells.length ≤ 2 := by simp [hcells]
      refine ⟨head ++ gap, rest, [], by simp [ht], ?_, ?_, frames_of_length_le h hlength hcomment⟩
      · simp [replaceStartOf, Row.cell?, hcells, hleft]
      · rw [rightOf_eq_size hlength hcomment, hsize]
    | comment x xs hx hopens =>
      have hgap := Text.size_of_blanks h.isSeparatorRun_gap.1
      have hlength := List.length_pos_iff.2 h.gap_ne_nil
      rw [rightOf_of_opensComment hcells hcomment hx hopens, h.stop, Text.size_append] at hcursor
      omega
    | lastCell hcolumn hne hhead =>
      have hcell : ∃ c, cell? row.start (lexFrom (Text.size (head ++ gap)) rest) = some c ∧
          c.start = row.start + Text.size (head ++ gap) := exists_cell?_start hne hhead
      obtain ⟨keyword, hkeyword, hstart⟩ := hcell
      rw [cellsIn_of_isColumn hcolumn, hkeyword] at hcells
      rw [commentIn_of_isColumn hcolumn] at hcomment
      have hlength : row.cells.length ≤ 2 := by simp [hcells]
      refine ⟨head ++ gap, rest, [], by simp [ht], ?_, ?_, frames_of_length_le h hlength hcomment⟩
      · exact replaceStartOf_eq hcells hstart
      · rw [rightOf_eq_size hlength hcomment, hsize]
    | cell k tail hk hfills htail hjoins =>
      rw [hk, cellsIn_of_fillsCell hfills htail hjoins] at hcells
      rw [hk, commentIn_of_fillsCell hfills htail hjoins] at hcomment
      by_cases hmore : row.cells.length ≤ 2 ∧ row.comment = none
      · refine ⟨head ++ gap, rest, [], by simp [ht], ?_, ?_, frames_of_length_le h hmore.1 hmore.2⟩
        · exact replaceStartOf_eq hcells rfl
        · rw [rightOf_eq_size hmore.1 hmore.2, hsize]
      · refine ⟨head ++ gap, k, tail, by simp [ht, hk], ?_, ?_, frames_of_nameColumn h htail ?_ ?_⟩
        · exact replaceStartOf_eq hcells rfl
        · have hright : cellsIn row.start (beyond (Text.size (head ++ gap) + Text.size k) tail) = [] →
              row.comment.isSome = true := by
            intro hnil
            rw [Option.isSome_iff_ne_none]
            intro hnone
            rw [hnil] at hcells
            exact hmore ⟨by simp [hcells], hnone⟩
          rw [rightOf_eq_stop hcells hright]
          simp only
          omega
        · rw [hcells]
          exact map_value_cellsIn_beyond _ _ _
        · rw [hcomment]
          exact map_value_commentIn_beyond _ _ _
  · cases hregion

end KeywordCompletion.KeywordRegion
