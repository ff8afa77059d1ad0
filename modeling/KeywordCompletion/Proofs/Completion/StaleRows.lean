import KeywordCompletion.Proofs.Completion.Typing

/-!
# Rows of another text

Completion may be given the rows of another text than the one in view, such as an older one. It goes on only
with a row that starts and ends where the line of the cursor does, and looks at nothing else of it: the cells
may stand anywhere in the row. Still nothing is replaced outside the line, for all cells lie in their row:
`confined_complete`.
-/

namespace KeywordCompletion

open Text

lemma Source.cell_le {s : Source} {n : Nat} {row : Row} (hrow : s.row? n = some row) :
    ∀ cell ∈ row.cells, cell.start ≤ cell.stop ∧ cell.stop ≤ row.stop := by
  obtain ⟨t, -, hlength, hlaid⟩ := Source.exists_laid hrow
  intro cell hmem
  obtain ⟨w, v, rfl, hcell⟩ := hlaid.exists_part cell (List.mem_append_left _ hmem)
  have hstart : cell.start = row.start + size w := congrArg Cell.start hcell
  have hstop : cell.stop = row.start + size w + size cell.value := congrArg Cell.stop hcell
  simp only [size_append] at hlength
  rw [Row.stop]
  omega

namespace KeywordRegion

variable {t : Text} {row : Row}

lemma rightOf_le (h : ∀ cell ∈ row.cells, cell.stop ≤ row.start + size t) : rightOf t row ≤ size t := by
  rw [rightOf]
  split
  · rename_i name keyword argument more hcells
    have hkeyword := h keyword (by simp [hcells])
    omega
  · split
    · split
      · rename_i last hlast
        have hstop := h last (List.mem_of_getLast? hlast)
        omega
      · exact Nat.zero_le _
    · exact Nat.le_refl _

/-- What is replaced does not end before it starts, where the region does not. -/
lemma replaceStartOf_le (h : ∀ cell ∈ row.cells, cell.start ≤ cell.stop ∧ cell.stop ≤ row.start + size t)
    (hle : leftOf t row ≤ rightOf t row) : replaceStartOf t row ≤ rightOf t row := by
  match hcells : row.cells with
  | [] | [_] => simpa [replaceStartOf, Row.cell?, hcells] using hle
  | name :: keyword :: cells =>
    obtain ⟨hstart, hstop⟩ := h keyword (by simp [hcells])
    have hkeyword : row.cell? 1 = some keyword := by simp [Row.cell?, hcells]
    simp only [replaceStartOf, hkeyword]
    by_cases hlast : cells = [] ∧ row.comment = none
    · rw [rightOf_eq_size (by simp [hcells, hlast.1]) hlast.2]
      omega
    · have hmore : cells = [] → row.comment.isSome = true :=
        fun hnil => Option.isSome_iff_ne_none.2 fun hnone => hlast ⟨hnil, hnone⟩
      rw [rightOf_eq_stop hcells hmore]
      omega

end KeywordRegion

namespace Completion

open KeywordRegion LineView

variable {α : Type} [LineView α] {ctx : CompletionContext} {f : FileId} {view : α} {parsed : Source}
  {c : SourceCache} {n offset : Nat} {t : Text} {row : Row}

/-- What completion answers for a view and the rows of a source, whatever text these were parsed from. -/
structure Confined (view : α) (parsed : Source) (offset : Nat)
    (answer : Except CompletionError CompletionOutcome) : Prop where
  outside_iff : ∀ n, answer = .error (.offsetOutside n) ↔ n = offset ∧ size (text view) < offset
  missing_iff : ∀ n, answer = .error (.missingLine n) ↔
    lineOfOffset? view offset = some n ∧ lineSpan? parsed n ≠ lineSpan? view n
  ok_iff : (∃ outcome, answer = .ok outcome) ↔
    ∃ n, lineOfOffset? view offset = some n ∧ lineSpan? parsed n = lineSpan? view n
  replaced : ∀ outcome, answer = .ok outcome → ∀ proposal ∈ outcome.proposals, ∃ n span,
    lineOfOffset? view offset = some n ∧ lineSpan? view n = some span ∧
      span.start ≤ proposal.replaced.start ∧ proposal.replaced.start ≤ proposal.replaced.stop ∧
      proposal.replaced.stop ≤ span.stop

/-- The ways in which the row of an offset is found, or is not. -/
inductive Finding (view : α) (parsed : Source) (offset : Nat) : Except CompletionError (Text × Row) → Prop
  | outside (h : size (text view) < offset) : Finding view parsed offset (.error (.offsetOutside offset))
  | missing {n : Nat} (hline : lineOfOffset? view offset = some n) (h : lineSpan? parsed n ≠ lineSpan? view n) :
    Finding view parsed offset (.error (.missingLine n))
  | found {n : Nat} {t : Text} {row : Row} (hline : lineOfOffset? view offset = some n)
    (hrow : parsed.row? n = some row) (hspan : lineSpan? view n = some ⟨row.start, row.stop⟩)
    (hsize : row.length = size t) : Finding view parsed offset (.ok (t, row))

lemma finding_currentRow (h : FollowsLines view) (parsed : Source) (offset : Nat) :
    Finding view parsed offset (currentRow view parsed offset) := by
  rw [currentRow]
  cases hline : lineOfOffset? view offset with
  | none =>
    refine .outside (Nat.lt_of_not_le fun hle => ?_)
    obtain ⟨n, hn⟩ := h.partitions.exists_line offset hle
    rw [hline] at hn
    cases hn
  | some n =>
    obtain ⟨-, ⟨start, hstart, -⟩, -⟩ := (h.partitions.lineOfOffset?_eq_some_iff offset n).1 hline
    obtain ⟨span, hspan, rfl⟩ := Option.map_eq_some_iff.1 hstart
    obtain ⟨t, ht, -⟩ := h.partitions.feed n span hspan
    obtain ⟨-, -, -, -, hstop⟩ := slice?_eq_some_iff.1
      ((congrArg (·.bind (slice? view)) hspan).symm.trans ht : Text.slice? (text view) _ _ = some t)
    simp only [hstart, ht]
    cases hrow : parsed.row? n with
    | none =>
      have hnone : lineSpan? parsed n = none := congrArg (Option.map _) hrow
      exact .missing hline (by simp [hnone, hspan])
    | some row =>
      have hparsed : lineSpan? parsed n = some ⟨row.start, row.stop⟩ := congrArg (Option.map _) hrow
      dsimp only
      split
      · rename_i hsame
        obtain ⟨hfrom, hsize⟩ := hsame
        refine .found hline hrow ?_ hsize
        rw [hspan, Row.stop, hfrom, hsize, hstop]
      · rename_i hother
        refine .missing hline fun heq => hother ?_
        rw [hparsed, hspan, Option.some.injEq] at heq
        subst heq
        exact ⟨rfl, Nat.add_left_cancel hstop.symm⟩

lemma replaced_le {cursor : Nat} {proposal : Proposal} (hrow : parsed.row? n = some row)
    (hsize : row.length = size t) (h : proposal ∈ (completeRow ctx f t row cursor c).1.proposals) :
    row.start ≤ proposal.replaced.start ∧ proposal.replaced.start ≤ proposal.replaced.stop ∧
      proposal.replaced.stop ≤ row.stop := by
  obtain ⟨region, hregion, hcursor, hproposes⟩ := proposes_completeRow h
  have hcells : ∀ cell ∈ row.cells, cell.start ≤ cell.stop ∧ cell.stop ≤ row.start + size t := by
    rw [← hsize]
    exact Source.cell_le hrow
  have hright := rightOf_le fun cell hcell => (hcells cell hcell).2
  rw [of?, if_pos (isKeywordCall_of_region hregion), Option.some.injEq] at hregion
  subst hregion
  obtain ⟨hleft, hcursor⟩ := contains_iff.1 hcursor
  have hstart := replaceStartOf_le hcells (Nat.le_trans hleft hcursor)
  rw [hproposes.replaced, replaced, Row.stop]
  dsimp only
  omega

/-- The typed part ends at the last boundary of characters that is not behind `n`. -/
lemma le_size_typedPart {value : Text} {k : Nat} (hk : isBoundary value k = true) (hle : k ≤ n) :
    k ≤ size (typedPart value n) := by
  obtain ⟨rest, hrest⟩ := Option.isSome_iff_exists.1 hk
  obtain ⟨s, rfl, rfl⟩ := exists_append_of_drop? hrest
  clear hk hrest
  induction s generalizing n with
  | nil => exact Nat.zero_le _
  | cons x s ih =>
    rw [size_cons] at hle
    rw [List.cons_append, typedPart, if_pos (by omega), size_cons, size_cons]
    exact Nat.add_le_add_left (ih (by omega)) _

lemma size_typedPart_le (value : Text) (n : Nat) : size (typedPart value n) ≤ n := by
  induction value generalizing n with
  | nil => exact Nat.zero_le _
  | cons x value ih =>
    rw [typedPart]
    split
    · have hle := ih (n - x.utf8Size)
      rw [size_cons]
      omega
    · exact Nat.zero_le _

lemma confined_of_followsLines (h : FollowsLines view) (ctx : CompletionContext) (f : FileId)
    (parsed : Source) (offset : Nat) (c : SourceCache) :
    Confined view parsed offset (complete ctx f view parsed offset c).1 := by
  have hinside : ∀ n, lineOfOffset? view offset = some n → ¬ size (text view) < offset :=
    fun n hn => Nat.not_lt_of_le ((h.partitions.lineOfOffset?_eq_some_iff offset n).1 hn).1
  have hfinding := finding_currentRow h parsed offset
  rw [complete]
  generalize currentRow view parsed offset = found at hfinding
  cases hfinding with
  | outside hout =>
    have hnone : ∀ n, lineOfOffset? view offset ≠ some n := fun n hn => hinside n hn hout
    exact ⟨by simp [hout, eq_comm], by simp [hnone], by simp [hnone], by simp⟩
  | @missing n hline hmissing =>
    refine ⟨by simp [hinside n hline], fun m => ?_, ?_, by simp⟩
    · simp only [hline, Except.error.injEq, CompletionError.missingLine.injEq, Option.some.injEq]
      exact ⟨fun hm => ⟨hm, hm ▸ hmissing⟩, And.left⟩
    · simp [hline, hmissing]
  | @found n t row hline hrow hspan hsize =>
    have hparsed : lineSpan? parsed n = lineSpan? view n := by
      rw [hspan]
      exact congrArg (Option.map _) hrow
    refine ⟨by simp [hinside n hline], fun m => ?_, by simp [hline, hparsed], ?_⟩
    · simp only [hline, reduceCtorEq, false_iff, Option.some.injEq, not_and, ne_eq, not_not]
      rintro rfl
      exact hparsed
    · intro outcome houtcome proposal hproposal
      obtain rfl := Except.ok.inj houtcome
      exact ⟨n, _, hline, hspan, replaced_le hrow hsize hproposal⟩

/-- For a document or a source in view and the rows of any text, completion at any offset fails exactly if the
offset lies outside the view or the rows have none that starts and ends where the line of the offset does.
Everything it proposes is to be put in on that line. The part of a keyword before the cursor is what stands
before the last boundary of characters that is not behind the cursor. -/
theorem confined_complete (ctx : CompletionContext) (f : FileId) (parsed : Source) (offset : Nat)
    (c : SourceCache) :
    (∀ d : Document, Confined d parsed offset (complete ctx f d parsed offset c).1) ∧
    (∀ s : Source, Confined s parsed offset (complete ctx f s parsed offset c).1) ∧
    ∀ value n, typedPart value n <+: value ∧ size (typedPart value n) ≤ n ∧
      ∀ k ≤ n, isBoundary value k = true → k ≤ size (typedPart value n) := by
  refine ⟨fun d => confined_of_followsLines d.followsLines ctx f parsed offset c,
    fun s => confined_of_followsLines s.followsLines ctx f parsed offset c, fun value n => ?_⟩
  have hstart : typedPart value n <+: value := typedPart_prefix value n
  exact ⟨hstart, size_typedPart_le value n, fun k hle hk => le_size_typedPart hk hle⟩

/-- The keyword of the older row stands where a letter of two bytes begins now. What is replaced ends in the
middle of that letter, and yet on the line. -/
theorem confined_complete_older :
    let d := Document.ofText "*** Keywords ***\nT  äbc".toList 2
    let before := Source.ofText "*** Keywords ***\nT  L  x".toList
    let ctx : CompletionContext := ⟨⟨⟨[]⟩, []⟩, ⟨[], false⟩, .leading⟩
    let f : FileId := ⟨"/w/m".toList⟩
    let answer := (complete ctx f d before 20 (SourceCache.empty.update f before.text)).1
    lineSpan? d 1 = some ⟨17, 24⟩ ∧
      answer = .ok ⟨[⟨['T'], ⟨20, 21⟩, ['m']⟩], [.fullInput, .showAll]⟩ ∧ Confined d before 20 answer := by
  intro d before ctx f answer
  have hfacts : lineSpan? d 1 = some ⟨17, 24⟩ ∧
      answer = .ok ⟨[⟨['T'], ⟨20, 21⟩, ['m']⟩], [.fullInput, .showAll]⟩ := by
    decide +kernel
  exact ⟨hfacts.1, hfacts.2, (confined_complete ctx f before 20 _).1 d⟩

end Completion

end KeywordCompletion
