import Mathlib.Data.List.Chain
import KeywordCompletion.Proofs.Row.Grammar

/-!
# The column format

What the column format promises of the cells and the comment of a row, by induction on the grammar of rows:
`columnFormat_splitCells`.
-/

namespace KeywordCompletion

open Text

/-- Two parts of a row that starts at byte `base` with exactly one separator between them. -/
def Separated (line : Text) (base : Nat) (p q : Cell) : Prop :=
  ∃ before run after, line = before ++ (run ++ after) ∧ IsSeparator before run after ∧
    p.stop = base + size before ∧ q.start = base + size before + size run

/-- What the cells and the comment of a row that starts at byte `base` are. -/
structure ColumnFormat (line : Text) (base : Nat) (cells : List Cell) (comment : Option Cell) : Prop where
  slice : ∀ p ∈ cells ++ comment.toList, ∃ start stop, p.start = base + start ∧ p.stop = base + stop ∧
    slice? line start stop = some p.value
  ordered : (cells ++ comment.toList).Pairwise fun p q => p.stop < q.start
  outside : ∀ before c after, line = before ++ c :: after → isBlank c = false →
    ∃ p ∈ cells ++ comment.toList,
      p.start ≤ base + size before ∧ base + size before + c.utf8Size ≤ p.stop
  gaps : (cells ++ comment.toList).IsChain (Separated line base)
  cell : ∀ p ∈ cells, p.value ≠ [] → ∃ before after, line = before ++ (p.value ++ after) ∧
    p.start = base + size before ∧ IsCellText before p.value
  empty_first : ∀ column p, cells[column]? = some p → p.value = [] → column = 0 ∧ p.start = base
  empty_iff : (∃ p ∈ cells, p.value = []) ↔ ∃ run after, line = run ++ after ∧ IsSeparator [] run after
  comment : ∀ p ∈ comment, ∃ before after, line = before ++ (p.value ++ after) ∧
    p.start = base + size before ∧ IsCommentText p.value after

namespace Text.IsSeparator

variable {before run after : Text}

lemma ne_nil (h : IsSeparator before run after) : run ≠ [] := by
  rintro rfl
  exact absurd h.wide (by decide)

lemma size_pos (h : IsSeparator before run after) : 0 < size run := by
  obtain ⟨c, run, rfl⟩ := List.exists_cons_of_ne_nil h.ne_nil
  have hpos := c.utf8Size_pos
  rw [size_cons]
  omega

/-- A separator protects nothing behind it, so that no blank follows it. -/
lemma head?_not_isBlank (h : IsSeparator before run after) : ∀ c ∈ after.head?, isBlank c = false := by
  intro c hc
  obtain ⟨more, rfl⟩ := List.head?_eq_some_iff.1 hc
  obtain ⟨d, u, hrun⟩ := List.exists_cons_of_ne_nil h.ne_nil
  have hfree := (h.free [] d u hrun).2
  rw [List.append_nil] at hfree
  have hblank := isBlank_of_free h.free
  have hprotects : protects (before ++ run) = false := protects_append_of_blanks hfree hblank
  by_contra hc
  exact h.right c more rfl ⟨by simpa using hc, hprotects⟩

end Text.IsSeparator

lemma append_eq_append_cons {a b w v : Text} {c : Char} (h : a ++ b = w ++ c :: v) :
    (∃ u, w = a ++ u ∧ b = u ++ c :: v) ∨ ∃ u, a = w ++ c :: u := by
  rcases List.append_eq_append_iff.1 h with ⟨u, hw, hb⟩ | ⟨u, ha, hv⟩
  · exact Or.inl ⟨u, hw, hb⟩
  · cases u with
    | nil =>
      rw [List.append_nil] at ha
      exact Or.inl ⟨[], by rw [ha, List.append_nil], hv.symm⟩
    | cons d u =>
      obtain rfl : c = d := (List.cons.inj hv).1
      exact Or.inr ⟨u, ha⟩

/-- Blanks at the head of a text are passed over on the way to a character that is none. -/
lemma exists_append_of_blanks {lead t w v : Text} {c : Char} (hlead : ∀ c ∈ lead, isBlank c = true)
    (h : lead ++ t = w ++ c :: v) (hc : isBlank c = false) : ∃ u, w = lead ++ u ∧ t = u ++ c :: v := by
  rcases append_eq_append_cons h with hu | ⟨u, rfl⟩
  · exact hu
  · rw [hlead c (by simp)] at hc
    cases hc

/-- There are no blanks at the head of a text that starts with no blank. -/
lemma eq_nil_of_blanks {lead t : Text} (hlead : ∀ c ∈ lead, isBlank c = true)
    (hhead : ∀ c ∈ (lead ++ t).head?, isBlank c = false) : lead = [] := by
  cases lead with
  | nil => rfl
  | cons c lead =>
    have hc := hhead c rfl
    rw [hlead c List.mem_cons_self] at hc
    cases hc

namespace Laid

variable {base : Nat} {before rest line : Text} {cells : List Cell} {comment : Option Cell}

lemma exists_part (h : Laid base before rest cells comment) : ∀ p ∈ cells ++ comment.toList,
    ∃ w v, rest = w ++ (p.value ++ v) ∧ p = .behind base (before ++ w) p.value := by
  induction h with
  | blank => simp
  | @comment before lead value after hlead hs hvalue =>
    intro p hp
    obtain rfl : p = .behind base (before ++ lead) value := by simpa using hp
    exact ⟨lead, after, rfl, rfl⟩
  | @cell before lead value gap rest cells comment hlead hs hvalue hgap hsep h ih =>
    intro p hp
    rcases List.mem_cons.1 hp with rfl | hp
    · exact ⟨lead, gap ++ rest, rfl, rfl⟩
    · obtain ⟨w, v, hrest, hp⟩ := ih p hp
      refine ⟨lead ++ (value ++ (gap ++ w)), v, ?_, ?_⟩
      · rw [hrest]
        simp only [List.append_assoc]
      · simpa only [List.append_assoc] using hp
  | @empty gap rest cells comment hsep h ih =>
    intro p hp
    rcases List.mem_cons.1 hp with rfl | hp
    · exact ⟨[], gap ++ rest, rfl, rfl⟩
    · obtain ⟨w, v, hrest, hp⟩ := ih p hp
      exact ⟨gap ++ w, v, by rw [hrest, List.append_assoc], hp⟩

lemma le_start (h : Laid base before rest cells comment) {p : Cell} (hp : p ∈ cells ++ comment.toList) :
    base + size before ≤ p.start := by
  obtain ⟨w, v, -, hp⟩ := h.exists_part p hp
  have hstart := congrArg Cell.start hp
  simp only [Cell.behind, size_append] at hstart
  omega

lemma rest_ne_nil (h : Laid base before rest cells comment) {p : Cell} (hp : p ∈ cells ++ comment.toList) :
    rest ≠ [] := by
  cases h with
  | blank => simp at hp
  | comment hlead hs hvalue =>
    have hopens := hvalue.opens
    rintro hnil
    simp only [List.append_eq_nil_iff] at hnil
    simp [hnil.2.1] at hopens
  | cell hlead hs hvalue => simp [hvalue.ne_nil]
  | empty hsep => simp [hsep.ne_nil]

/-- Where no blank stands at the head of what is left of a row, its first part starts there. -/
lemma start_of_head? (h : Laid base before rest cells comment) (hhead : ∀ c ∈ rest.head?, isBlank c = false) :
    ∀ p ∈ (cells ++ comment.toList).head?, p.start = base + size before := by
  cases h with
  | blank => simp
  | comment hlead hs hvalue =>
    obtain rfl := eq_nil_of_blanks hlead hhead
    simp [Cell.behind]
  | cell hlead hs hvalue =>
    obtain rfl := eq_nil_of_blanks hlead hhead
    simp [Cell.behind]
  | empty hsep => simp [Cell.behind]

lemma ordered (h : Laid base before rest cells comment) :
    (cells ++ comment.toList).Pairwise fun p q => p.stop < q.start := by
  induction h with
  | blank => simp
  | comment => simp
  | @cell before lead value gap rest cells comment hlead hs hvalue hgap hsep h ih =>
    rw [List.cons_append, List.pairwise_cons]
    refine ⟨fun q hq => ?_, ih⟩
    have hpos := (hsep (h.rest_ne_nil hq)).size_pos
    have hle := h.le_start hq
    simp only [size_append] at hle
    simp only [Cell.behind, size_append]
    omega
  | empty hsep h ih =>
    rw [List.cons_append, List.pairwise_cons]
    refine ⟨fun q hq => ?_, ih⟩
    have hpos := hsep.size_pos
    have hle := h.le_start hq
    simp only [Cell.behind, size_nil]
    omega

lemma gaps (h : Laid base before rest cells comment) :
    (cells ++ comment.toList).IsChain (Separated (before ++ rest) base) := by
  induction h with
  | blank => simp
  | comment => simp
  | @cell before lead value gap rest cells comment hlead hs hvalue hgap hsep h ih =>
    have hline : before ++ lead ++ value ++ gap ++ rest = before ++ (lead ++ (value ++ (gap ++ rest))) := by
      simp only [List.append_assoc]
    rw [hline] at ih
    rw [List.cons_append, List.isChain_cons]
    refine ⟨fun q hq => ?_, ih⟩
    have hsep := hsep (h.rest_ne_nil (List.mem_of_head? hq))
    refine ⟨_, gap, rest, ?_, hsep, ?_, ?_⟩
    · simp only [List.append_assoc]
    · simp only [Cell.behind, size_append]
      omega
    · rw [h.start_of_head? hsep.head?_not_isBlank q hq, size_append]
      omega
  | @empty gap rest cells comment hsep h ih =>
    rw [List.cons_append, List.isChain_cons]
    refine ⟨fun q hq => ⟨[], gap, rest, rfl, hsep, rfl, ?_⟩, ih⟩
    rw [h.start_of_head? hsep.head?_not_isBlank q hq]
    rfl

/-- A character that is no blank stands in a cell or in the comment. -/
lemma outside (h : Laid base before rest cells comment) {w v : Text} {c : Char} (hrest : rest = w ++ c :: v)
    (hc : isBlank c = false) : ∃ p ∈ cells ++ comment.toList,
      p.start ≤ base + size (before ++ w) ∧ base + size (before ++ w) + c.utf8Size ≤ p.stop := by
  induction h generalizing w with
  | blank h =>
    rw [h c (by simp [hrest])] at hc
    cases hc
  | @comment before lead value after hlead hs hvalue =>
    obtain ⟨u, rfl, hu⟩ := exists_append_of_blanks hlead hrest hc
    rcases append_eq_append_cons hu with ⟨u', -, hafter⟩ | ⟨u', rfl⟩
    · rw [hvalue.after c (by simp [hafter])] at hc
      cases hc
    · refine ⟨.behind base (before ++ lead) (u ++ c :: u'), List.mem_singleton_self _, ?_, ?_⟩ <;>
        simp only [Cell.behind, size_append, size_cons] <;> omega
  | @cell before lead value gap rest cells comment hlead hs hvalue hgap hsep h ih =>
    obtain ⟨u, rfl, hu⟩ := exists_append_of_blanks hlead hrest hc
    rcases append_eq_append_cons hu with ⟨u', rfl, hu'⟩ | ⟨u', rfl⟩
    · obtain ⟨x, rfl, hx⟩ := exists_append_of_blanks hgap hu' hc
      obtain ⟨p, hp, hstart, hstop⟩ := ih hx
      refine ⟨p, List.mem_cons_of_mem _ hp, ?_, ?_⟩
      · simpa only [List.append_assoc] using hstart
      · simpa only [List.append_assoc] using hstop
    · refine ⟨_, List.mem_cons_self, ?_, ?_⟩ <;>
        simp only [Cell.behind, size_append, size_cons] <;> omega
  | @empty gap rest cells comment hsep h ih =>
    obtain ⟨u, rfl, hu⟩ := exists_append_of_blanks (isBlank_of_free hsep.free) hrest hc
    obtain ⟨p, hp, hstart, hstop⟩ := ih hu
    exact ⟨p, List.mem_cons_of_mem _ hp, hstart, hstop⟩

lemma cell_text (h : Laid base before rest cells comment) : ∀ p ∈ cells, p.value ≠ [] →
    ∃ w v, before ++ rest = w ++ (p.value ++ v) ∧ p.start = base + size w ∧ IsCellText w p.value := by
  induction h with
  | blank => simp
  | comment => simp
  | @cell before lead value gap rest cells comment hlead hs hvalue hgap hsep h ih =>
    intro p hp hne
    rcases List.mem_cons.1 hp with rfl | hp
    · exact ⟨before ++ lead, gap ++ rest, by rw [List.append_assoc]; rfl, rfl, hvalue⟩
    · simpa only [List.append_assoc] using ih p hp hne
  | empty hsep h ih =>
    intro p hp hne
    rcases List.mem_cons.1 hp with rfl | hp
    · exact absurd rfl hne
    · exact ih p hp hne

lemma comment_text (h : Laid base before rest cells comment) : ∀ p ∈ comment,
    ∃ w v, before ++ rest = w ++ (p.value ++ v) ∧ p.start = base + size w ∧ IsCommentText p.value v := by
  induction h with
  | blank => simp
  | @comment before lead value after hlead hs hvalue =>
    rintro p hp
    obtain rfl : Cell.behind base (before ++ lead) value = p := by simpa using hp
    exact ⟨before ++ lead, after, by rw [List.append_assoc]; rfl, rfl, hvalue⟩
  | cell hlead hs hvalue hgap hsep h ih => simpa only [List.append_assoc] using ih
  | empty hsep h ih => exact ih

lemma value_ne_nil (h : Laid base before rest cells comment) (hne : before ≠ []) :
    ∀ p ∈ cells, p.value ≠ [] := by
  induction h with
  | blank => simp
  | comment => simp
  | cell hlead hs hvalue hgap hsep h ih =>
    rw [List.forall_mem_cons]
    exact ⟨hvalue.ne_nil, ih (by simp [hvalue.ne_nil])⟩
  | empty => exact absurd rfl hne

lemma empty_first (h : Laid base [] line cells comment) {column : Nat} {p : Cell}
    (hp : cells[column]? = some p) (hnil : p.value = []) : column = 0 ∧ p.start = base := by
  cases h with
  | blank => simp at hp
  | comment => simp at hp
  | cell hlead hs hvalue hgap hsep h =>
    rcases List.mem_cons.1 (List.mem_of_getElem? hp) with rfl | hmem
    · exact absurd hnil hvalue.ne_nil
    · exact absurd hnil (h.value_ne_nil (by simp [hvalue.ne_nil]) p hmem)
  | empty hsep h =>
    cases column with
    | zero =>
      obtain rfl : Cell.behind base [] [] = p := by simpa using hp
      exact ⟨rfl, rfl⟩
    | succ column =>
      rw [List.getElem?_cons_succ] at hp
      exact absurd hnil (h.value_ne_nil hsep.ne_nil p (List.mem_of_getElem? hp))

/-- Blanks that separate nothing, before a text that starts with no blank, are no separator, and none starts
with them. -/
lemma not_isSeparator_of_lead {lead t run after : Text} (hs : isSeparatorRun lead = false)
    (ht : ∀ c ∈ t.head?, isBlank c = false) (h : lead ++ t = run ++ after) :
    ¬ IsSeparator [] run after := by
  intro hsep
  have hwide := hsep.wide
  have hblank := isBlank_of_free hsep.free
  rcases List.append_eq_append_iff.1 h with ⟨u, rfl, hu⟩ | ⟨u, rfl, -⟩
  · cases u with
    | nil => simp [hs] at hwide
    | cons c u =>
      have hc := ht c (by rw [hu]; rfl)
      rw [hblank c (by simp)] at hc
      cases hc
  · rw [Token.isSeparatorRun_of_append (u := []) hs] at hwide
    cases hwide

lemma empty_iff (h : Laid base [] line cells comment) : (∃ p ∈ cells, p.value = []) ↔
    ∃ run after, line = run ++ after ∧ IsSeparator [] run after := by
  cases h with
  | blank h hs =>
    refine iff_of_false (by simp) ?_
    rintro ⟨run, after, hline, hsep⟩
    exact not_isSeparator_of_lead hs (t := []) (by simp) (by simpa using hline) hsep
  | comment hlead hs hvalue =>
    refine iff_of_false (by simp) ?_
    rintro ⟨run, after, hline, hsep⟩
    refine not_isSeparator_of_lead hs ?_ hline hsep
    rw [List.head?_append, hvalue.opens]
    rintro c ⟨⟩
    decide
  | cell hlead hs hvalue hgap hsep h =>
    refine iff_of_false ?_ ?_
    · rintro ⟨p, hp, hnil⟩
      rcases List.mem_cons.1 hp with rfl | hp
      · exact hvalue.ne_nil hnil
      · exact h.value_ne_nil (by simp [hvalue.ne_nil]) p hp hnil
    · rintro ⟨run, after, hline, hsep⟩
      refine not_isSeparator_of_lead hs ?_ hline hsep
      obtain ⟨c, value, rfl⟩ := List.exists_cons_of_ne_nil hvalue.ne_nil
      rintro d ⟨⟩
      exact (hvalue.opens c value rfl).1
  | @empty gap rest cells comment hsep h =>
    exact iff_of_true ⟨_, List.mem_cons_self, rfl⟩ ⟨gap, rest, rfl, hsep⟩

end Laid

/-- A line is divided into cells and a comment as the column format says. -/
theorem columnFormat_splitCells (line : Text) (base : Nat) (hfeed : '\n' ∉ line) :
    ColumnFormat line base (splitCells line base).1 (splitCells line base).2 := by
  have h := laid_splitCells base hfeed
  refine ⟨?_, h.ordered, ?_, h.gaps, h.cell_text, fun column p => h.empty_first, h.empty_iff,
    h.comment_text⟩
  · intro p hp
    obtain ⟨w, v, hline, hp⟩ := h.exists_part p hp
    rw [hp]
    exact ⟨size w, size w + size p.value, rfl, Nat.add_assoc _ _ _, by rw [hline]; exact slice?_append _ _ _⟩
  · intro before c after hline hc
    exact h.outside hline hc

/-- A row with an empty first cell, a protected blank and a comment with blanks in it. -/
theorem columnFormat_splitCells_escape :
    let line := "  Log\\   # 1\t#  two ".toList
    '\n' ∉ line ∧ ColumnFormat line 7
      [⟨[], 7, 7⟩, ⟨"Log\\ ".toList, 9, 14⟩] (some ⟨"# 1\t#  two".toList, 16, 26⟩) := by
  intro line
  have hfeed : '\n' ∉ line := by decide
  have hcells : splitCells line 7 =
      ([⟨[], 7, 7⟩, ⟨"Log\\ ".toList, 9, 14⟩], some ⟨"# 1\t#  two".toList, 16, 26⟩) := by
    decide +kernel
  have hformat := columnFormat_splitCells line 7 hfeed
  rw [hcells] at hformat
  exact ⟨hfeed, hformat⟩

end KeywordCompletion
