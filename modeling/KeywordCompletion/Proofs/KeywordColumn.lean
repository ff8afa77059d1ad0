import KeywordCompletion.Proofs.LineViews
import KeywordCompletion.Proofs.Region
import KeywordCompletion.Proofs.Row.Format

/-!
# The keyword column

The keyword region is found by looking for a separator behind the name, while cells are found token by
token. Both find the same column: in a row that calls a keyword the region covers the keyword cell and the
blanks behind it, and nothing else: `covers_keywordCell`.
-/

namespace KeywordCompletion

open Text

lemma RowKind.ne_nil_of_isKeywordCall {table : Option Table} {cells : List Cell} {remark : Option Cell}
    (h : (classify table cells remark).1.isKeywordCall = true) : cells ≠ [] := by
  rintro rfl
  rw [classify] at h
  cases remark <;> cases h

lemma Source.exists_lineText? {s : Source} {n : Nat} {row : Row} (hrow : s.row? n = some row) :
    ∃ t table, LineView.lineText? s n = some t ∧ '\n' ∉ t ∧ row = (Row.read table row.start t).1 := by
  have hparse : (Row.parse s.text)[n]? = some row := by
    rw [← s.rows_eq]
    exact hrow
  obtain ⟨table, pre, body, ending, post, hplace⟩ := Row.exists_place hparse
  have hrow_eq := hplace.row_eq
  have hstart : row.start = size pre := by
    rw [hrow_eq]
    rfl
  have hlength : row.length = size body := by
    rw [hrow_eq]
    rfl
  have hspan : LineView.lineSpan? s n = some ⟨size pre, size pre + size body⟩ := by
    simp only [LineView.lineSpan?, hrow, Option.map_some, Row.stop, hstart, hlength]
  refine ⟨body, table, ?_, hplace.feed, by rw [hstart]; exact hrow_eq⟩
  rw [LineView.lineText?, hspan, Option.bind_some]
  change slice? s.text _ _ = _
  rw [hplace.text_eq]
  exact slice?_append pre body (ending ++ post)

/-- The cells and the comment of a row of a source are laid in its line. -/
lemma Source.exists_laid {s : Source} {n : Nat} {row : Row} (hrow : s.row? n = some row) :
    ∃ t, LineView.lineText? s n = some t ∧ row.length = size t ∧ Laid row.start [] t row.cells row.comment := by
  obtain ⟨t, table, ht, hfeed, hread⟩ := Source.exists_lineText? hrow
  have hlaid := laid_splitCells row.start hfeed
  rw [← show row.cells = (splitCells t row.start).1 by rw [hread, Row.read_eq],
    ← show row.comment = (splitCells t row.start).2 by rw [hread, Row.read_eq]] at hlaid
  exact ⟨t, ht, by rw [hread, Row.read_eq], hlaid⟩

lemma Source.cells_ne_nil {s : Source} {n : Nat} {row : Row} (hrow : s.row? n = some row)
    (hcalls : row.kind.isKeywordCall = true) : row.cells ≠ [] := by
  obtain ⟨t, table, -, -, hread⟩ := Source.exists_lineText? hrow
  rw [hread, Row.read_eq] at hcalls ⊢
  exact RowKind.ne_nil_of_isKeywordCall hcalls

lemma Laid.eq_nil_of_nil {base : Nat} {before : Text} {cells : List Cell} {comment : Option Cell}
    (h : Laid base before [] cells comment) : cells = [] ∧ comment = none := by
  have hnothing : cells ++ comment.toList = [] :=
    List.eq_nil_iff_forall_not_mem.2 fun p hp => h.rest_ne_nil hp rfl
  obtain ⟨hcells, hcomment⟩ := List.append_eq_nil_iff.1 hnothing
  exact ⟨hcells, by simpa using hcomment⟩

lemma Laid.isBlank_of_nothing {base : Nat} {before rest : Text} {cells : List Cell} {comment : Option Cell}
    (h : Laid base before rest cells comment) (hcells : cells = []) (hcomment : comment = none) :
    ∀ c ∈ rest, isBlank c = true := by
  cases h with
  | blank h => exact h
  | comment => cases hcomment
  | cell | empty => cases hcells

namespace KeywordRegion

variable {t head gap rest before : Text} {row : Row} {name : Cell} {cells : List Cell}

/-- Blanks that separate nothing may stand behind the name at the end of a row. The region starts before
them. -/
lemma leftOf_of_not_isSeparatorRun (hname : row.cell? 0 = some name)
    (hstop : name.stop = row.start + size head) (hblank : ∀ c ∈ gap, isBlank c = true)
    (hrun : isSeparatorRun gap = false) : leftOf (head ++ gap) row = size head := by
  have hdrop : drop? (head ++ gap) (size head) = some gap := drop?_size_append _ _
  have htake : gap.takeWhile isBlank = gap := List.takeWhile_eq_self_iff.2 hblank
  have hstop' : name.stop - row.start = size head := by omega
  have hsep : separatorAt (head ++ gap) (size head) = none := by
    rw [separatorAt, hdrop]
    simp [htake, hrun]
  rw [leftOf, hname]
  simp only
  rw [hstop', skipSeparator, hsep, size_append]
  split
  · omega
  · rfl

/-- What stands behind the name of a row with a text. -/
inductive Behind (t : Text) (row : Row) (name : Cell) : Prop
  /-- Blanks up to the end of the row, or nothing. -/
  | blank {before blanks : Text} (ht : t = before ++ blanks) (hblanks : ∀ c ∈ blanks, isBlank c = true)
    (hname : name.stop ≤ row.start + size before) (hleft : leftOf t row = size before)
    (hcells : row.cells = [name]) (hcomment : row.comment = none)
  | comment (hleft : name.stop - row.start < leftOf t row) (hcells : row.cells = [name])
    (hcomment : row.comment.isSome = true)
  | keyword {before value after : Text} {cells : List Cell} (ht : t = before ++ (value ++ after))
    (hname : name.stop ≤ row.start + size before) (hleft : leftOf t row = size before)
    (hcells : row.cells = name :: .behind row.start before value :: cells)
    (hbehind : ∀ p ∈ cells ++ row.comment.toList, row.start + size before + size value ≤ p.start)
    (hafter : cells = [] → row.comment = none → ∀ c ∈ after, isBlank c = true)

lemma behind_of_laid (h : Laid row.start before rest cells row.comment) (ht : t = before ++ rest)
    (hne : before ≠ []) (hrest : ∀ c ∈ rest.head?, isBlank c = false) (hcells : row.cells = name :: cells)
    (hname : name.stop - row.start < size before) (hleft : leftOf t row = size before) :
    Behind t row name := by
  have hstop : name.stop ≤ row.start + size before := by omega
  generalize hcomment : row.comment = comment at h
  cases h with
  | blank hblank _ => exact .blank ht hblank hstop hleft hcells hcomment
  | comment hlead hs hvalue =>
    rw [← hleft] at hname
    exact .comment hname hcells (by rw [hcomment]; rfl)
  | @cell _ lead value gap more cells _ hlead hs hvalue hgap hsep h =>
    obtain rfl := eq_nil_of_blanks hlead hrest
    rw [List.append_nil] at h hcells
    have ht : t = before ++ (value ++ (gap ++ more)) := ht
    refine .keyword ht hstop hleft hcells ?_ ?_
    · intro p hp
      rw [hcomment] at hp
      have hle := h.le_start hp
      rw [size_append, size_append] at hle
      omega
    · intro hnil hnone c hc
      rw [hcomment] at hnone
      rcases List.mem_append.1 hc with hc | hc
      · exact hgap c hc
      · exact h.isBlank_of_nothing hnil hnone c hc
  | empty => exact absurd rfl hne

lemma behind_of_last (hcells : row.cells = [name]) (hcomment : row.comment = none)
    (hstop : name.stop = row.start + size head) (hgap : ∀ c ∈ gap, isBlank c = true) :
    Behind (head ++ gap) row name := by
  have hname : row.cell? 0 = some name := by simp [Row.cell?, hcells]
  cases hrun : isSeparatorRun gap with
  | true =>
    have hleft : leftOf (head ++ (gap ++ [])) row = size head + size gap :=
      leftOf_of_isSeparatorRun hname hstop hgap hrun (by simp)
    rw [List.append_nil, ← size_append] at hleft
    refine .blank (List.append_nil _).symm (by simp) ?_ hleft hcells hcomment
    rw [size_append]
    omega
  | false =>
    exact .blank rfl hgap hstop.le (leftOf_of_not_isSeparatorRun hname hstop hgap hrun) hcells hcomment

lemma behind_of_isSeparator (h : Laid row.start (head ++ gap) rest cells row.comment)
    (hcells : row.cells = name :: cells) (hstop : name.stop = row.start + size head)
    (hsep : IsSeparator head gap rest) : Behind (head ++ (gap ++ rest)) row name := by
  have hname : row.cell? 0 = some name := by simp [Row.cell?, hcells]
  have hhead := hsep.head?_not_isBlank
  have hpos := hsep.size_pos
  have hleft := leftOf_of_isSeparatorRun hname hstop (isBlank_of_free hsep.free) hsep.wide hhead
  rw [← size_append] at hleft
  refine behind_of_laid h (List.append_assoc _ _ _).symm (by simp [hsep.ne_nil]) hhead hcells ?_ hleft
  rw [size_append]
  omega

/-- What stands behind the name is found by the grammar of rows. -/
theorem exists_behind (h : Laid row.start [] t row.cells row.comment) (hne : row.cells ≠ []) :
    ∃ name, Behind t row name := by
  generalize hcells : row.cells = cells, hcomment : row.comment = comment at h
  cases h with
  | blank | comment => exact absurd hcells hne
  | @cell _ lead value gap rest cells _ hlead hs hvalue hgap hsep h =>
    rw [List.nil_append] at h hsep hcells
    have hstop : (Cell.behind row.start lead value).stop = row.start + size (lead ++ value) := by
      rw [size_append, ← Nat.add_assoc]
      rfl
    refine ⟨.behind row.start lead value, ?_⟩
    rw [← List.append_assoc lead]
    by_cases hrest : rest = []
    · -- the row ends with the blanks behind its name, which need not separate anything
      subst hrest
      obtain ⟨rfl, hnone⟩ := h.eq_nil_of_nil
      rw [List.append_nil]
      exact behind_of_last hcells (hcomment.trans hnone) hstop hgap
    · rw [← hcomment] at h
      exact behind_of_isSeparator h hcells hstop (hsep hrest)
  | @empty gap rest cells _ hsep h =>
    rw [← hcomment] at h
    exact ⟨.behind row.start [] [], behind_of_isSeparator h hcells rfl hsep⟩

/-- A region that covers the keyword cell of a row with the blanks behind it, or blanks only where no keyword
stands. -/
structure Covers (t : Text) (row : Row) (region : KeywordRegion) : Prop where
  le : region.left ≤ region.right
  right_le : region.right ≤ row.length
  boundaries : isBoundary t region.left = true ∧ isBoundary t region.right = true
  slice : ∃ blanks, (∀ c ∈ blanks, isBlank c = true) ∧
    slice? t region.replaceStart region.right = some (((row.cell? 1).map Cell.value).getD [] ++ blanks)
  name : ∀ name ∈ row.cell? 0, name.stop ≤ row.start + region.left
  keyword : ∀ keyword ∈ row.cell? 1, keyword.start = row.start + region.left
  arguments : ∀ argument ∈ row.cells.drop 2, row.start + region.right ≤ argument.start
  comment : ∀ comment ∈ row.comment, row.start + region.right ≤ comment.start

lemma covers_of_append {region : KeywordRegion} {word blanks after : Text} {more : List Cell}
    (ht : t = before ++ ((word ++ blanks) ++ after)) (hlength : row.length = size t)
    (hleft : region.left = size before) (hstart : region.replaceStart = size before)
    (hright : region.right = size before + size (word ++ blanks)) (hblanks : ∀ c ∈ blanks, isBlank c = true)
    (hcells : row.cells = name :: more) (hname : name.stop ≤ row.start + size before)
    (hword : (more.head?.map Cell.value).getD [] = word)
    (hkeyword : ∀ keyword ∈ more.head?, keyword.start = row.start + size before)
    (hbehind : ∀ p ∈ more.drop 1 ++ row.comment.toList, row.start + region.right ≤ p.start) :
    Covers t row region := by
  have hkeyword? : row.cell? 1 = more.head? := by rw [Row.cell?, hcells, List.head?_eq_getElem?]; rfl
  have hdrop : drop? t (size before) = some ((word ++ blanks) ++ after) := by
    rw [ht]
    exact drop?_size_append _ _
  have hdrop' : drop? t (size before + size (word ++ blanks)) = some after := by
    rw [ht, ← List.append_assoc, ← size_append]
    exact drop?_size_append _ _
  refine ⟨by omega, ?_, ?_, ⟨blanks, hblanks, ?_⟩, ?_, ?_, ?_, ?_⟩
  · have hsize : size t = size before + (size (word ++ blanks) + size after) := by
      rw [ht, size_append, size_append (word ++ blanks)]
    omega
  · rw [hleft, hright, isBoundary, isBoundary, hdrop, hdrop']
    exact ⟨rfl, rfl⟩
  · rw [hstart, hright, hkeyword?, hword, ht]
    exact slice?_append _ _ _
  · intro first hfirst
    obtain rfl : name = first := by simpa [Row.cell?, hcells] using hfirst
    rwa [hleft]
  · rw [hkeyword?, hleft]
    exact hkeyword
  · intro argument hargument
    rw [hcells] at hargument
    exact hbehind argument (List.mem_append_left _ hargument)
  · intro comment hcomment
    exact hbehind comment (List.mem_append_right _ (by simpa using hcomment))

lemma Behind.replaceStartOf_eq (h : Behind t row name) : replaceStartOf t row = leftOf t row := by
  cases h with
  | blank _ _ _ _ hcells _ | comment _ hcells _ => simp [replaceStartOf, Row.cell?, hcells]
  | keyword _ _ hleft hcells _ _ => rw [hleft, KeywordRegion.replaceStartOf_eq hcells rfl]

lemma Behind.covers (h : Behind t row name) (hlength : row.length = size t) :
    (rightOf t row < leftOf t row ∧ row.cells.length = 1 ∧ row.comment.isSome = true) ∨
      (Covers t row ⟨leftOf t row, rightOf t row, replaceStartOf t row⟩ ∧
        ¬ (row.cells.length = 1 ∧ row.comment.isSome = true)) := by
  have hstart := h.replaceStartOf_eq
  cases h with
  | @blank before blanks ht hblanks hname hleft hcells hcomment =>
    refine Or.inr ⟨?_, by simp [hcomment]⟩
    have hright : rightOf t row = size before + size ([] ++ blanks) := by
      rw [rightOf_eq_size (by simp [hcells]) hcomment, ht, size_append]
      rfl
    have ht : t = before ++ (([] ++ blanks) ++ []) := by simpa using ht
    exact covers_of_append ht hlength hleft (hstart.trans hleft) hright hblanks hcells hname rfl
      (by simp) (by simp [hcomment])
  | comment hleft hcells hcomment =>
    have hright : rightOf t row = name.stop - row.start := by simp [rightOf, hcells, hcomment]
    exact Or.inl ⟨by omega, by simp [hcells], hcomment⟩
  | @keyword before value after cells ht hname hleft hcells hbehind hafter =>
    refine Or.inr ⟨?_, by simp [hcells]⟩
    by_cases hlast : cells = [] ∧ row.comment = none
    · obtain ⟨rfl, hnone⟩ := hlast
      have hright : rightOf t row = size before + size (value ++ after) := by
        rw [rightOf_eq_size (by simp [hcells]) hnone, ht, size_append]
      have ht : t = before ++ ((value ++ after) ++ []) := by simpa using ht
      exact covers_of_append ht hlength hleft (hstart.trans hleft) hright (hafter rfl hnone) hcells hname
        rfl (by simp [Cell.behind]) (by simp [hnone])
    · have hmore : cells = [] → row.comment.isSome = true :=
        fun hnil => Option.isSome_iff_ne_none.2 fun hnone => hlast ⟨hnil, hnone⟩
      have hright : rightOf t row = size before + size (value ++ []) := by
        rw [rightOf_eq_stop hcells hmore, List.append_nil, Cell.behind]
        dsimp only
        omega
      have ht : t = before ++ ((value ++ []) ++ after) := by simpa using ht
      exact covers_of_append ht hlength hleft (hstart.trans hleft) hright (by simp) hcells hname rfl
        (by simp [Cell.behind]) (by simpa [hright, ← Nat.add_assoc] using hbehind)

/-- Where a row of a source calls a keyword, the region either ends before it starts or covers its column. -/
lemma exists_covers {s : Source} {n : Nat} {row : Row} (hrow : s.row? n = some row)
    (hcalls : row.kind.isKeywordCall = true) :
    ∃ t region, LineView.lineText? s n = some t ∧ row.length = size t ∧ of? t row = some region ∧
      region.left = region.replaceStart ∧
      ((region.right < region.left ∧ row.cells.length = 1 ∧ row.comment.isSome = true) ∨
        (Covers t row region ∧ ¬ (row.cells.length = 1 ∧ row.comment.isSome = true))) := by
  obtain ⟨t, ht, hlength, hlaid⟩ := Source.exists_laid hrow
  obtain ⟨name, h⟩ := exists_behind hlaid (Source.cells_ne_nil hrow hcalls)
  exact ⟨t, ⟨leftOf t row, rightOf t row, replaceStartOf t row⟩, ht, hlength, if_pos hcalls,
    h.replaceStartOf_eq.symm, h.covers hlength⟩

/-- In a row that calls a keyword the region starts where text is replaced from. The cursor is nowhere in it
exactly when the row is a name and a comment. Everywhere else it lies in the row and covers the keyword cell
with the blanks behind it, and no part of the name, of an argument or of the comment. -/
theorem covers_keywordCell (s : Source) (n : Nat) {row : Row} (hrow : s.row? n = some row)
    (hcalls : row.kind.isKeywordCall = true) :
    ∃ t region, LineView.lineText? s n = some t ∧ of? t row = some region ∧
      region.left = region.replaceStart ∧
      (region.right < region.left ↔ row.cells.length = 1 ∧ row.comment.isSome = true) ∧
      (region.left ≤ region.right → Covers t row region) := by
  obtain ⟨t, region, ht, -, hregion, hstart, hcases⟩ := exists_covers hrow hcalls
  refine ⟨t, region, ht, hregion, hstart, ?_⟩
  rcases hcases with ⟨hlt, hone⟩ | ⟨hcovers, hnot⟩
  · exact ⟨iff_of_true hlt hone, fun hle => absurd hlt (Nat.not_lt_of_le hle)⟩
  · exact ⟨iff_of_false (Nat.not_lt_of_le hcovers.le) hnot, fun _ => hcovers⟩

/-- The keyword cell ends with a protected blank, and a blank that separates nothing stands behind it. -/
theorem covers_keywordCell_escape :
    let s := Source.ofText "*** Keywords ***\nOne\n  Tw\\  ".toList
    let row : Row := ⟨21, 7, [⟨[], 21, 21⟩, ⟨"Tw\\ ".toList, 23, 27⟩], none, .keywordStep⟩
    s.row? 2 = some row ∧ row.kind.isKeywordCall = true ∧
      of? "  Tw\\  ".toList row = some ⟨2, 7, 2⟩ ∧ Covers "  Tw\\  ".toList row ⟨2, 7, 2⟩ := by
  intro s row
  have hrow : s.row? 2 = some row := by decide +kernel
  have hcalls : row.kind.isKeywordCall = true := rfl
  have hline : LineView.lineText? s 2 = some "  Tw\\  ".toList := by decide +kernel
  have hof : of? "  Tw\\  ".toList row = some ⟨2, 7, 2⟩ := by decide +kernel
  obtain ⟨t, region, ht, hregion, -, -, hcovers⟩ := covers_keywordCell s 2 hrow hcalls
  obtain rfl := Option.some.inj (hline.symm.trans ht)
  obtain rfl := Option.some.inj (hof.symm.trans hregion)
  exact ⟨hrow, hcalls, hof, hcovers (by decide)⟩

end KeywordRegion

end KeywordCompletion
