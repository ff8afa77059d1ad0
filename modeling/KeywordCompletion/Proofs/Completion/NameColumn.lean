import KeywordCompletion.Proofs.Completion.Stages

/-!
# The cursor in the name of a row

The keyword region starts behind the separator that ends the name. Where a row ends with its name there is no
such separator, and the region starts at the end of the name. So nothing is proposed in a name, except at the
end of a row that is nothing but a name. There every keyword is, to be put behind the name without a
separator: `complete_in_name`, `complete_in_name_glued`.
-/

namespace KeywordCompletion

open Text

/-- Whether a row with a text ends with its name, or with one space behind it, which separates nothing. -/
def Row.EndsWithName (t : Text) (row : Row) (name : Cell) : Prop :=
  drop? t (name.stop - row.start) = some [] ∨ drop? t (name.stop - row.start) = some [' ']

instance (t : Text) (row : Row) (name : Cell) : Decidable (row.EndsWithName t name) :=
  inferInstanceAs (Decidable (_ ∨ _))

lemma eq_nil_or_of_not_isSeparatorRun {gap : Text} (hblank : ∀ c ∈ gap, isBlank c = true)
    (hrun : isSeparatorRun gap = false) : gap = [] ∨ gap = [' '] := by
  match gap with
  | [] => exact Or.inl rfl
  | [c] =>
    have hc : c = ' ' ∨ c = '\t' := by simpa [isBlank] using hblank c (by simp)
    rcases hc with rfl | rfl
    · exact Or.inr rfl
    · cases hrun
  | _ :: _ :: _ => simp [isSeparatorRun] at hrun

namespace KeywordRegion

variable {t head gap rest after : Text} {row : Row} {name : Cell}

lemma endsWithName_iff (hstop : name.stop = row.start + size head) :
    row.EndsWithName (head ++ after) name ↔ after = [] ∨ after = [' '] := by
  have hdiff : name.stop - row.start = size head := by omega
  simp only [Row.EndsWithName, hdiff, drop?_size_append, Option.some.injEq]

/-- How the name of a row ends. -/
inductive NameEnds (t : Text) (row : Row) (name : Cell) : Prop
  | last (h : row.EndsWithName t name) (hcells : row.cells = [name]) (hcomment : row.comment = none)
    (hleft : row.start + leftOf t row = name.stop)
  | separated (h : ¬ row.EndsWithName t name) (hleft : name.stop < row.start + leftOf t row)

lemma nameEnds_of_isSeparatorRun (hname : row.cell? 0 = some name)
    (hstop : name.stop = row.start + size head) (hblank : ∀ c ∈ gap, isBlank c = true)
    (hrun : isSeparatorRun gap = true) (hrest : ∀ c ∈ rest.head?, isBlank c = false) :
    NameEnds (head ++ (gap ++ rest)) row name := by
  have hleft := leftOf_of_isSeparatorRun hname hstop hblank hrun hrest
  have hsize : size gap = gap.length := size_of_blanks hblank
  obtain ⟨c, more, rfl⟩ : ∃ c more, gap = c :: more := by
    refine List.exists_cons_of_ne_nil ?_
    rintro rfl
    cases hrun
  refine .separated ?_ (by rw [List.length_cons] at hsize; omega)
  rw [endsWithName_iff hstop]
  rintro (hnil | hspace)
  · cases hnil
  · obtain ⟨rfl, htail⟩ := List.cons.inj hspace
    obtain ⟨rfl, -⟩ := List.append_eq_nil_iff.1 htail
    cases hrun

/-- The name is in the row, and ends with a separator or with the row. -/
lemma nameEnds_of_laid (h : Laid row.start [] t row.cells row.comment) (hname : row.cell? 0 = some name) :
    name.stop ≤ row.start + size t ∧ NameEnds t row name := by
  generalize hcells : row.cells = cells, hcomment : row.comment = comment at h
  have hfirst : cells.head? = some name := by rw [← hcells, ← hname, Row.cell?, List.head?_eq_getElem?]
  cases h with
  | blank | comment => cases hfirst
  | @cell _ lead value gap rest cells _ _ _ _ hgap hsep h =>
    rw [List.nil_append] at hsep hcells hfirst
    obtain rfl := Option.some.inj hfirst
    have hstop : (Cell.behind row.start lead value).stop = row.start + size (lead ++ value) := by
      rw [size_append, ← Nat.add_assoc]
      rfl
    rw [← List.append_assoc lead]
    refine ⟨by rw [hstop, size_append (lead ++ value)]; omega, ?_⟩
    by_cases hrest : rest = []
    · subst hrest
      obtain ⟨rfl, hnone⟩ := h.eq_nil_of_nil
      cases hrun : isSeparatorRun gap with
      | true => exact nameEnds_of_isSeparatorRun hname hstop hgap hrun (by simp)
      | false =>
        have hleft := leftOf_of_not_isSeparatorRun hname hstop hgap hrun
        rw [List.append_nil]
        refine .last ?_ hcells (hcomment.trans hnone) (by rw [hleft, hstop])
        exact (endsWithName_iff hstop).2 (eq_nil_or_of_not_isSeparatorRun hgap hrun)
    · have hsep := hsep hrest
      exact nameEnds_of_isSeparatorRun hname hstop hgap hsep.wide hsep.head?_not_isBlank
  | @empty gap rest cells _ hsep _ =>
    obtain rfl := Option.some.inj hfirst
    refine ⟨Nat.le_add_right _ _, ?_⟩
    exact nameEnds_of_isSeparatorRun hname rfl (isBlank_of_free hsep.free) hsep.wide hsep.head?_not_isBlank

end KeywordRegion

namespace Completion

open KeywordRegion

variable {ctx : CompletionContext} {f : FileId} {d : Document} {c : SourceCache} {n offset cursor : Nat}
  {t : Text} {row : Row} {name : Cell}

lemma completeRow_of_lt (h : cursor < leftOf t row) : completeRow ctx f t row cursor c = (.empty, c) := by
  have hnone : (of? t row).filter (·.contains cursor) = none := by
    rw [of?]
    split
    · have hout : (⟨leftOf t row, rightOf t row, replaceStartOf t row⟩ : KeywordRegion).contains cursor =
          false := by
        rw [Bool.eq_false_iff, ne_eq, contains_iff]
        exact fun hin => absurd hin.1 (Nat.not_le_of_lt h)
      simp [Option.filter, hout]
    · rfl
  rw [completeRow, hnone]

/-- In the region of a row that is nothing but a name every keyword is proposed. -/
lemma completeRow_of_single (hcalls : row.kind.isKeywordCall = true) (hcells : row.cells = [name])
    (hcomment : row.comment = none) (hleft : leftOf t row ≤ cursor) (hright : cursor ≤ size t) :
    completeRow ctx f t row cursor c =
      let found := search ctx f ⟨row.start + leftOf t row, row.start + size t⟩ .all c
      (⟨found.1, [.fullInput]⟩, found.2) := by
  have hcell : row.cell? 1 = none := by simp [Row.cell?, hcells]
  have hregion : of? t row = some ⟨leftOf t row, size t, leftOf t row⟩ := by
    rw [of?, if_pos hcalls, rightOf_eq_size (by simp [hcells]) hcomment, replaceStartOf, hcell]
  have hin : (⟨leftOf t row, size t, leftOf t row⟩ : KeywordRegion).contains cursor = true :=
    contains_iff.2 ⟨hleft, hright⟩
  exact completeRow_of_cell?_eq_none (Option.filter_eq_some_iff.2 ⟨hregion, hin⟩) hcell ctx f c

/-- Completion at an offset on a line of a document is completion in the row of that line. -/
lemma complete_eq_completeRow (hrow : (Source.ofText d.text).row? n = some row)
    (ht : LineView.lineText? d n = some t) (hstart : row.start ≤ offset) (hstop : offset ≤ row.stop) :
    complete ctx f d (Source.ofText d.text) offset c =
      let result := completeRow ctx f t row (offset - row.start) c
      (.ok result.1, result.2) := by
  have hagrees := d.followsLines.agrees (Source.ofText d.text).followsLines rfl
  have hspan : LineView.lineSpan? d n = some ⟨row.start, row.stop⟩ := by
    rw [← hagrees.lineSpan?_eq n]
    exact congrArg (Option.map _) hrow
  have hslice : LineView.slice? d ⟨row.start, row.stop⟩ = some t := by
    rwa [LineView.lineText?, hspan, Option.bind_some] at ht
  obtain ⟨-, -, -, -, hsize⟩ := slice?_eq_some_iff.1 hslice
  have hline := Document.lineOfOffset?_eq hspan hslice hstart hstop
  have hcurrent := currentRow_eq hline hspan hslice hrow rfl (Nat.add_left_cancel hsize.symm)
  simp only [complete, hcurrent]

/-- With the cursor in the name of a row that calls a keyword, or behind one space that ends the row there,
nothing is searched, unless the row ends with the name and the cursor is not before the end of the name. In that
case every visible keyword is proposed, to replace what stands behind the name. -/
theorem complete_in_name (ctx : CompletionContext) (f : FileId) (d : Document) (c : SourceCache)
    (hrow : (Source.ofText d.text).row? n = some row) (hcalls : row.kind.isKeywordCall = true)
    (ht : LineView.lineText? d n = some t) (hname : row.cell? 0 = some name) (hstart : row.start ≤ offset)
    (hoffset : offset ≤ name.stop ∨ row.EndsWithName t name ∧ offset ≤ row.stop) :
    complete ctx f d (Source.ofText d.text) offset c =
      if row.EndsWithName t name ∧ name.stop ≤ offset then
        let found := search ctx f ⟨name.stop, row.stop⟩ .all c
        (.ok ⟨found.1, [.fullInput]⟩, found.2)
      else (.ok .empty, c) := by
  obtain ⟨t', ht', hlength, hlaid⟩ := Source.exists_laid hrow
  have hagrees := d.followsLines.agrees (Source.ofText d.text).followsLines rfl
  obtain rfl : t = t' := Option.some.inj (ht.symm.trans ((hagrees.lineText?_eq n).symm.trans ht'))
  have hstop : row.stop = row.start + size t := by rw [Row.stop, hlength]
  obtain ⟨hle, hends⟩ := nameEnds_of_laid hlaid hname
  rw [complete_eq_completeRow hrow ht hstart (by omega)]
  cases hends with
  | separated hnot hleft =>
    have hbefore : offset ≤ name.stop := hoffset.resolve_right fun h => hnot h.1
    rw [if_neg fun h => hnot h.1, completeRow_of_lt (by omega)]
  | last h hcells hcomment hleft =>
    by_cases hcursor : name.stop ≤ offset
    · rw [if_pos ⟨h, hcursor⟩, completeRow_of_single hcalls hcells hcomment (by omega) (by omega), hleft,
        hstop]
    · rw [if_neg fun h => hcursor h.2, completeRow_of_lt (by omega)]

/-- A comment follows the name, so that the name ends with a separator. -/
theorem complete_in_name_commented :
    let d := Document.ofText "*** Keywords ***\nOne  # Two".toList 1
    let f : FileId := ⟨"/w/m".toList⟩
    let ctx : CompletionContext := ⟨⟨⟨[]⟩, []⟩, ⟨[], false⟩, .leading⟩
    let c := SourceCache.empty.update f d.text
    let name : Cell := ⟨"One".toList, 17, 20⟩
    let row : Row := ⟨17, 10, [name], some ⟨"# Two".toList, 22, 27⟩, .keywordBegin⟩
    (Source.ofText d.text).row? 1 = some row ∧ ¬ row.EndsWithName "One  # Two".toList name ∧
      complete ctx f d (Source.ofText d.text) 20 c = (.ok .empty, c) := by
  intro d f ctx c name row
  have hfacts : (Source.ofText d.text).row? 1 = some row ∧
      LineView.lineText? d 1 = some "One  # Two".toList ∧ ¬ row.EndsWithName "One  # Two".toList name := by
    decide +kernel
  obtain ⟨hrow, ht, hnot⟩ := hfacts
  refine ⟨hrow, hnot, ?_⟩
  rw [complete_in_name ctx f d c hrow rfl ht rfl (by decide) (Or.inl (Nat.le_refl 20)),
    if_neg fun h => hnot h.1]

/-- Where a row is nothing but a name, the keyword of the row itself is proposed at its end, and is put
there without a separator. -/
theorem complete_in_name_glued :
    let d := Document.ofText "*** Keywords ***\nOne".toList 1
    let f : FileId := ⟨"/w/m".toList⟩
    let ctx : CompletionContext := ⟨⟨⟨[]⟩, []⟩, ⟨[], false⟩, .leading⟩
    let c := SourceCache.empty.update f d.text
    let name : Cell := ⟨"One".toList, 17, 20⟩
    (Source.ofText d.text).row? 1 = some ⟨17, 3, [name], none, .keywordBegin⟩ ∧
      (complete ctx f d (Source.ofText d.text) name.stop c).1 =
        .ok ⟨[⟨"One".toList, ⟨20, 20⟩, "m".toList⟩], [.fullInput]⟩ ∧
      Document.splice? d.text ⟨20, 20⟩ "One".toList = some "*** Keywords ***\nOneOne".toList := by
  decide +kernel

end Completion

end KeywordCompletion
