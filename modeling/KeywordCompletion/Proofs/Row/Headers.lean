import KeywordCompletion.Proofs.Row.Lines
import KeywordCompletion.Proofs.Row.Respacing

/-!
# Headers with other spaces

The name of a table depends on the words of its header and not on the white space between them. A line that starts
with a star and has no `#` behind a blank opens the table that the line as a whole names: its cells make up all of it
but for the separators, wherever backslashes move these. So a header may be spaced in any way: `Row.read_joined`.
-/

namespace KeywordCompletion

open Text

variable {base : Nat} {a b t u run trail before rest line : Text} {gaps parts : List Text} {cells : List Cell}

namespace Text

/-- The words before a white space and those behind it are the words of a text. -/
lemma words_append_cons {c : Char} (hc : isWhiteSpace c = true) (a b : Text) :
    words (a ++ c :: b) = words a ++ words b := by
  rw [words, cut_append_cons hc, List.filter_append]
  rfl

lemma words_append_of_forall (hrun : ∀ c ∈ run, isWhiteSpace c = true) (b : Text) :
    words (run ++ b) = words b := by
  induction run with
  | nil => rfl
  | cons c run ih =>
    rw [List.forall_mem_cons] at hrun
    exact (words_append_cons hrun.1 [] (run ++ b)).trans (ih hrun.2)

lemma words_append_run (hne : run ≠ []) (hrun : ∀ c ∈ run, isWhiteSpace c = true) (a b : Text) :
    words (a ++ (run ++ b)) = words a ++ words b := by
  obtain ⟨c, run, rfl⟩ := List.exists_cons_of_ne_nil hne
  rw [List.forall_mem_cons] at hrun
  rw [List.cons_append, words_append_cons hrun.1, words_append_of_forall hrun.2]

variable {p : Char → Bool}

/-- Trimmed of a class with all white space in it, a text has the same words with any white space in a place where
there is some. -/
lemma words_trim_append_run (hp : ∀ c, isWhiteSpace c = true → p c = true) {run' : Text} (hne : run ≠ [])
    (hrun : ∀ c ∈ run, isWhiteSpace c = true) (hne' : run' ≠ []) (hrun' : ∀ c ∈ run', isWhiteSpace c = true)
    (a b : Text) : words (trim p (a ++ (run ++ b))) = words (trim p (a ++ (run' ++ b))) := by
  by_cases ha : ∀ c ∈ a, p c = true
  · have hdrop {run : Text} (hrun : ∀ c ∈ run, isWhiteSpace c = true) :
        (a ++ (run ++ b)).dropWhile p = b.dropWhile p := by
      rw [List.dropWhile_append_of_pos ha, List.dropWhile_append_of_pos fun c hc => hp c (hrun c hc)]
    rw [trim, trim, hdrop hrun, hdrop hrun']
  have hdrop (more : Text) : (a ++ more).dropWhile p = a.dropWhile p ++ more := by
    rw [List.dropWhile_append, if_neg]
    simpa using ha
  rw [trim, trim, hdrop, hdrop]
  by_cases hb : ∀ c ∈ b, p c = true
  · have hend {run : Text} (hrun : ∀ c ∈ run, isWhiteSpace c = true) : ∀ c ∈ run ++ b, p c = true :=
      List.forall_mem_append.2 ⟨fun c hc => hp c (hrun c hc), hb⟩
    rw [trimEnd_append_of_forall _ (hend hrun), trimEnd_append_of_forall _ (hend hrun')]
  · have hb : ∃ c ∈ b, p c = false := by simpa using hb
    have hwords {run : Text} (hne : run ≠ []) (hrun : ∀ c ∈ run, isWhiteSpace c = true) :
        words (trimEnd p (a.dropWhile p ++ (run ++ b))) = words (a.dropWhile p) ++ words (trimEnd p b) := by
      rw [← List.append_assoc, trimEnd_append _ hb, List.append_assoc, words_append_run hne hrun]
    rw [hwords hne hrun, hwords hne' hrun']

lemma trim_append_of_forall (hu : ∀ c ∈ u, p c = true) (t : Text) : trim p (t ++ u) = trim p t := by
  by_cases ht : ∀ c ∈ t, p c = true
  · rw [trim, trim, List.dropWhile_eq_nil_iff.2 ht, List.dropWhile_eq_nil_iff.2 (List.forall_mem_append.2 ⟨ht, hu⟩)]
  · have hdrop : (t ++ u).dropWhile p = t.dropWhile p ++ u := by
      rw [List.dropWhile_append, if_neg]
      simpa using ht
    rw [trim, trim, hdrop, trimEnd_append_of_forall _ hu]

end Text

namespace Table

/-- The name of a table is the same with any white space between the words of its header. -/
lemma normalName_append_run (hne : run ≠ []) (hrun : ∀ c ∈ run, isWhiteSpace c = true) (a b : Text) :
    normalName (a ++ (run ++ b)) = normalName (a ++ ' ' :: b) := by
  have hwords := words_trim_append_run (p := fun c => c == '*' || isWhiteSpace c) (fun c hc => by simp [hc]) hne hrun
    (List.cons_ne_nil ' ' []) (List.forall_mem_singleton.2 rfl) a b
  rw [normalName, normalName]
  exact congrArg (fun ws => lowercase ([' '].intercalate ws)) hwords

lemma normalName_append_of_forall (htrail : ∀ c ∈ trail, isWhiteSpace c = true) (t : Text) :
    normalName (t ++ trail) = normalName t := by
  rw [normalName, normalName, trim_append_of_forall fun c hc => by simp [htrail c hc]]

lemma normalName_append_joined (hlength : gaps.length + 1 = parts.length)
    (hgaps : ∀ gap ∈ gaps, gap ≠ [] ∧ ∀ c ∈ gap, isWhiteSpace c = true) (a : Text) :
    normalName (a ++ joined parts gaps) = normalName (a ++ [' '].intercalate parts) := by
  induction gaps generalizing a parts with
  | nil =>
    obtain ⟨part, rfl⟩ := List.length_eq_one_iff.1 hlength.symm
    simp [joined]
  | cons gap gaps ih =>
    rw [List.forall_mem_cons] at hgaps
    obtain ⟨part, more, rfl⟩ := List.exists_cons_of_length_eq_add_one hlength.symm
    obtain ⟨next, more, rfl⟩ := List.exists_cons_of_length_eq_add_one (Nat.succ.inj hlength).symm
    have hspace := normalName_append_run hgaps.1.1 hgaps.1.2 (a ++ part) (joined (next :: more) gaps)
    have hmore := ih (Nat.succ.inj hlength) hgaps.2 (a ++ part ++ [' '])
    rw [joined, List.intercalate_cons_cons]
    simp only [List.append_assoc, List.singleton_append] at hspace hmore ⊢
    rw [hspace, hmore]

/-- The table that a header opens does not depend on the white space between its words and behind them. -/
lemma ofHeader_joined (hlength : gaps.length + 1 = parts.length)
    (hgaps : ∀ gap ∈ gaps, gap ≠ [] ∧ ∀ c ∈ gap, isWhiteSpace c = true)
    (htrail : ∀ c ∈ trail, isWhiteSpace c = true) :
    ofHeader (joined parts gaps ++ trail) = ofHeader ([' '].intercalate parts) := by
  have hname : normalName (joined parts gaps) = normalName ([' '].intercalate parts) :=
    normalName_append_joined hlength hgaps []
  rw [ofHeader, ofHeader, normalName_append_of_forall htrail, hname]

end Table

/-- Whether each `#` of a text stands behind a character that is no blank, so that it opens no comment. -/
def Text.OpensNoComment (t : Text) : Prop := ∀ u v, t = u ++ '#' :: v → ∃ c ∈ u.getLast?, isBlank c = false

lemma Text.OpensNoComment.right (h : OpensNoComment (a ++ b)) (ha : ∀ c ∈ a.getLast?, isBlank c = true) :
    OpensNoComment b := by
  rintro u v rfl
  obtain ⟨c, hc, hblank⟩ := h (a ++ u) v (List.append_assoc _ _ _).symm
  cases u with
  | nil =>
    rw [List.append_nil] at hc
    rw [ha c hc] at hblank
    cases hblank
  | cons d u =>
    rw [List.getLast?_append_of_ne_nil _ (List.cons_ne_nil d u)] at hc
    exact ⟨c, hc, hblank⟩

lemma Text.IsSeparator.exists_head?_isBlank {gap after : Text} (hsep : IsSeparator before gap after) (more : Text) :
    ∃ c ∈ (gap ++ more).head?, isBlank c = true := by
  obtain ⟨c, gap, rfl⟩ := List.exists_cons_of_ne_nil hsep.ne_nil
  exact ⟨c, rfl, isBlank_of_free hsep.free c List.mem_cons_self⟩

/-- What a separator leaves of a row opens no comment if the row opens none. -/
lemma Text.IsSeparator.opensNoComment {gap : Text} (hsep : IsSeparator before gap rest)
    (h : OpensNoComment (a ++ (gap ++ rest))) : OpensNoComment rest := by
  rw [← List.append_assoc] at h
  refine h.right fun c hc => ?_
  rw [List.getLast?_append_of_ne_nil _ hsep.ne_nil] at hc
  exact isBlank_of_free hsep.free c (List.mem_of_getLast? hc)

lemma mem_joined {c : Char} (h : c ∈ joined parts gaps) : (∃ part ∈ parts, c ∈ part) ∨ ∃ gap ∈ gaps, c ∈ gap := by
  fun_induction joined parts gaps with
  | case1 part parts gap gaps ih =>
    simp only [List.mem_append] at h
    rcases h with h | h | h
    · exact Or.inl ⟨part, List.mem_cons_self, h⟩
    · exact Or.inr ⟨gap, List.mem_cons_self, h⟩
    · refine (ih h).imp ?_ ?_ <;> rintro ⟨t, ht, hc⟩ <;> exact ⟨t, List.mem_cons_of_mem _ ht, hc⟩
  | case2 => exact Or.inl (List.mem_flatten.1 h)

/-- Blanks between words without blanks, of which none starts with `#`, let no comment open. -/
lemma opensNoComment_joined {words : List Text} (hlength : gaps.length + 1 = words.length)
    (hwords : ∀ w ∈ words, w.head? ≠ some '#' ∧ ∀ c ∈ w, isBlank c = false)
    (hgaps : ∀ gap ∈ gaps, ∀ c ∈ gap, isBlank c = true) (htrail : ∀ c ∈ trail, isBlank c = true) :
    OpensNoComment (joined words gaps ++ trail) := by
  have hword {w u v : Text} (hw : w.head? ≠ some '#' ∧ ∀ c ∈ w, isBlank c = false) (hu : w = u ++ '#' :: v) :
      ∃ c ∈ u.getLast?, isBlank c = false := by
    rcases List.eq_nil_or_concat u with rfl | ⟨u, c, rfl⟩
    · exact absurd (by rw [hu]; rfl) hw.1
    · exact ⟨c, by simp, hw.2 c (by simp [hu])⟩
  have hblanks {run u v : Text} (hrun : ∀ c ∈ run, isBlank c = true) : run ≠ u ++ '#' :: v := by
    rintro rfl
    exact absurd (hrun '#' (by simp)) (by decide)
  induction gaps generalizing words with
  | nil =>
    obtain ⟨w, rfl⟩ := List.length_eq_one_iff.1 hlength.symm
    intro u v hu
    rcases append_eq_append_cons hu with ⟨u', -, htail⟩ | ⟨u', hw⟩
    · exact absurd htail (hblanks htrail)
    · exact hword (hwords w (by simp)) (by simpa [joined] using hw)
  | cons gap gaps ih =>
    rw [List.forall_mem_cons] at hgaps
    obtain ⟨w, more, rfl⟩ := List.exists_cons_of_length_eq_add_one hlength.symm
    rw [List.forall_mem_cons] at hwords
    intro u v hu
    rw [joined, List.append_assoc, List.append_assoc] at hu
    rcases append_eq_append_cons hu with ⟨u', rfl, hu'⟩ | ⟨u', hw⟩
    · rcases append_eq_append_cons hu' with ⟨u'', rfl, hu''⟩ | ⟨u'', hgap⟩
      · obtain ⟨c, hc, hblank⟩ := ih (Nat.succ.inj hlength) hwords.2 hgaps.2 u'' v hu''
        refine ⟨c, ?_, hblank⟩
        rw [← List.append_assoc, List.getLast?_append, Option.mem_def.1 hc]
        rfl
      · exact absurd hgap (hblanks hgaps.1)
    · exact hword hwords.1 hw

namespace Laid

lemma comment_eq_none {comment : Option Cell} (h : Laid base before rest cells comment)
    (hopens : OpensNoComment rest) : comment = none := by
  induction h with
  | blank => rfl
  | @comment before lead value after hlead hs hvalue =>
    obtain ⟨v, rfl⟩ := List.head?_eq_some_iff.1 hvalue.opens
    obtain ⟨c, hc, hblank⟩ := hopens lead (v ++ after) rfl
    rw [hlead c (List.mem_of_getLast? hc)] at hblank
    cases hblank
  | @cell before lead value gap rest cells comment hlead hs hvalue hgap hsep h ih =>
    by_cases hrest : rest = []
    · cases hcomment : comment with
      | none => rfl
      | some p => exact absurd hrest (h.rest_ne_nil (p := p) (by simp [hcomment]))
    · rw [← List.append_assoc lead] at hopens
      exact ih ((hsep hrest).opensNoComment hopens)
  | empty hsep h ih => exact ih (hsep.opensNoComment (a := []) hopens)

/-- The cells of a row without a comment make up the row, with blanks between them. -/
lemma exists_joined (h : Laid base before rest cells none) (hne : rest ≠ [])
    (hhead : ∀ c ∈ rest.head?, isBlank c = false) : ∃ gaps trail,
      rest = joined (cells.map Cell.value) gaps ++ trail ∧ gaps.length + 1 = (cells.map Cell.value).length ∧
      (∀ gap ∈ gaps, gap ≠ [] ∧ ∀ c ∈ gap, isBlank c = true) ∧ ∀ c ∈ trail, isBlank c = true := by
  generalize hcomment : none = comment at h
  induction h with
  | blank hblank =>
    obtain ⟨c, rest, rfl⟩ := List.exists_cons_of_ne_nil hne
    have hc := hhead c rfl
    rw [hblank c List.mem_cons_self] at hc
    cases hc
  | comment => cases hcomment
  | @cell before lead value gap rest cells comment hlead hs hvalue hgap hsep h ih =>
    obtain rfl := eq_nil_of_blanks hlead hhead
    by_cases hrest : rest = []
    · have hcells : cells = [] := by
        by_contra hcells
        obtain ⟨p, cells, rfl⟩ := List.exists_cons_of_ne_nil hcells
        exact h.rest_ne_nil (p := p) (by simp) hrest
      refine ⟨[], gap, ?_, by rw [hcells]; rfl, by simp, hgap⟩
      simp [hrest, hcells, joined, Cell.behind]
    · have hsep := hsep hrest
      obtain ⟨gaps, trail, hjoined, hlength, hgaps, htrail⟩ := ih hrest hsep.head?_not_isBlank hcomment
      refine ⟨gap :: gaps, trail, ?_, ?_, ?_, htrail⟩
      · rw [hjoined]
        simp [joined, Cell.behind]
      · rw [List.length_cons, hlength]
        simp
      · rw [List.forall_mem_cons]
        exact ⟨⟨hsep.ne_nil, hgap⟩, hgaps⟩
  | @empty gap rest cells comment hsep h ih =>
    obtain ⟨c, hc, hblank⟩ := hsep.exists_head?_isBlank rest
    rw [hhead c hc] at hblank
    cases hblank

end Laid

namespace Row

/-- A row that starts with a star and opens no comment is the header of the table that its whole line names. -/
lemma read_of_star (hfeed : '\n' ∉ line) (hstar : line.head? = some '*') (hopens : OpensNoComment line)
    (table : Option Table) (start : Nat) : (read table start line).1.kind = .header (Table.ofHeader line) ∧
      (read table start line).2 = some (Table.ofHeader line) := by
  have hlaid := laid_splitCells start hfeed
  have hnone := hlaid.comment_eq_none hopens
  rw [hnone] at hlaid
  have hhead : ∀ c ∈ line.head?, isBlank c = false := by
    rw [hstar]
    rintro c ⟨⟩
    decide
  obtain ⟨gaps, trail, hline, hlength, hgaps, htrail⟩ := hlaid.exists_joined (by rintro rfl; cases hstar) hhead
  have htable : Table.ofHeader line = Table.ofHeader (RowKind.headerText (splitCells line start).1) := by
    have hjoined := Table.ofHeader_joined hlength
      (fun gap hgap => ⟨(hgaps gap hgap).1, fun c hc => isWhiteSpace_of_isBlank ((hgaps gap hgap).2 c hc)⟩)
      fun c hc => isWhiteSpace_of_isBlank (htrail c hc)
    rwa [← hline] at hjoined
  rw [read_eq]
  generalize splitCells line start = parts at *
  obtain ⟨cells, comment⟩ := parts
  cases cells with
  | nil => simp at hlength
  | cons first cells =>
    have hne : first.value ≠ [] := by
      intro hnil
      obtain ⟨gap, rest, rfl, hsep⟩ := hlaid.empty_iff.1 ⟨first, List.mem_cons_self, hnil⟩
      obtain ⟨c, hc, hblank⟩ := hsep.exists_head?_isBlank rest
      rw [hhead c hc] at hblank
      cases hblank
    have hfirst : first.value.head? = some '*' := by
      obtain ⟨more, hmore⟩ := exists_joined_cons first.value (cells.map Cell.value) gaps
      rw [hline, List.map_cons, hmore, List.append_assoc, List.head?_append_of_ne_nil _ hne] at hstar
      exact hstar
    simp only [RowKind.classify, if_pos hfirst, htable, and_self]

lemma read_chomp_of_star (hfeed : '\n' ∉ line) (hstar : line.head? = some '*') (hopens : OpensNoComment line)
    (table : Option Table) (start : Nat) :
    (read table start (chomp line)).1.kind = .header (Table.ofHeader line) ∧
      (read table start (chomp line)).2 = some (Table.ofHeader line) := by
  obtain ⟨ending, hline, hends⟩ := exists_chomp_append line
  have hwhite : ∀ c ∈ ending, isWhiteSpace c = true := by
    rcases hends with ⟨rfl, -⟩ | rfl
    · exact List.forall_mem_nil _
    · exact List.forall_mem_singleton.2 rfl
  have htable : Table.ofHeader line = Table.ofHeader (chomp line) := by
    rw [Table.ofHeader, Table.ofHeader, hline, Table.normalName_append_of_forall hwhite, ← hline]
  rw [htable]
  refine read_of_star (fun h => hfeed (mem_of_mem_chomp h)) ?_ ?_ table start
  · rw [hline, List.head?_append] at hstar
    cases hchomp : (chomp line).head? with
    | some c => simpa [hchomp] using hstar
    | none =>
      rw [hchomp] at hstar
      rcases hends with ⟨rfl, -⟩ | rfl <;> simp at hstar
  · intro u v hu
    exact hopens u (v ++ ending) (by rw [hline, hu]; simp)

/-- A line of words, of which the first one starts with a star and none with `#`, is the header of the table that the
words name a space apart, with any blanks between the words and behind them. So it is without a carriage return that
ends it. -/
theorem read_joined {words gaps : List Text} {trail : Text}
    (hwords : ∀ w ∈ words, ∀ c ∈ w, c ≠ ' ' ∧ c ≠ '\t' ∧ c ≠ '\n')
    (hstar : ∃ w ∈ words.head?, w.head? = some '*') (hhash : ∀ w ∈ words, w.head? ≠ some '#')
    (hlength : gaps.length + 1 = words.length) (hgaps : ∀ gap ∈ gaps, gap ≠ [] ∧ ∀ c ∈ gap, c = ' ' ∨ c = '\t')
    (htrail : ∀ c ∈ trail, c = ' ' ∨ c = '\t') (table : Option Table) (start : Nat) :
    ∀ line ∈ [joined words gaps ++ trail, chomp (joined words gaps ++ trail)],
      (read table start line).1.kind = .header (Table.ofHeader ([' '].intercalate words)) ∧
        (read table start line).2 = some (Table.ofHeader ([' '].intercalate words)) := by
  simp only [← isBlank_iff] at hgaps htrail
  have hplain : ∀ w ∈ words, w.head? ≠ some '#' ∧ ∀ c ∈ w, isBlank c = false :=
    fun w hw => ⟨hhash w hw, fun c hc => by simpa [isBlank] using ⟨(hwords w hw c hc).1, (hwords w hw c hc).2.1⟩⟩
  have hwhite {run : Text} (hrun : ∀ c ∈ run, isBlank c = true) : ∀ c ∈ run, isWhiteSpace c = true :=
    fun c hc => isWhiteSpace_of_isBlank (hrun c hc)
  have htable : Table.ofHeader (joined words gaps ++ trail) = Table.ofHeader ([' '].intercalate words) :=
    Table.ofHeader_joined hlength (fun gap hgap => ⟨(hgaps gap hgap).1, hwhite (hgaps gap hgap).2⟩) (hwhite htrail)
  have hopens := opensNoComment_joined hlength hplain (fun gap hgap => (hgaps gap hgap).2) htrail
  have hfeed : '\n' ∉ joined words gaps ++ trail := by
    have hblanks {run : Text} (hrun : ∀ c ∈ run, isBlank c = true) : '\n' ∉ run :=
      fun h => absurd (hrun _ h) (by decide)
    rw [List.mem_append, not_or]
    refine ⟨fun h => ?_, hblanks htrail⟩
    rcases mem_joined h with ⟨w, hw, hc⟩ | ⟨gap, hgap, hc⟩
    · exact (hwords w hw _ hc).2.2 rfl
    · exact hblanks (hgaps gap hgap).2 hc
  have hhead : (joined words gaps ++ trail).head? = some '*' := by
    obtain ⟨w, hw, hwstar⟩ := hstar
    obtain ⟨more, rfl⟩ := List.head?_eq_some_iff.1 hw
    obtain ⟨v, rfl⟩ := List.head?_eq_some_iff.1 hwstar
    obtain ⟨rest, hrest⟩ := exists_joined_cons ('*' :: v) more gaps
    rw [hrest]
    rfl
  rw [← htable, List.forall_mem_cons, List.forall_mem_singleton]
  exact ⟨read_of_star hfeed hhead hopens table start, read_chomp_of_star hfeed hhead hopens table start⟩

/-- Two cells, of which the first one has a single blank in it, and a carriage return behind the last word. -/
theorem read_joined_returned :
    let words := ["*", "Test", "Cases", "***\r"].map String.toList
    let gaps := [" ", " ", "  \t"].map String.toList
    ((∀ w ∈ words, ∀ c ∈ w, c ≠ ' ' ∧ c ≠ '\t' ∧ c ≠ '\n') ∧ (∃ w ∈ words.head?, w.head? = some '*') ∧
      (∀ w ∈ words, w.head? ≠ some '#') ∧ gaps.length + 1 = words.length ∧
      ∀ gap ∈ gaps, gap ≠ [] ∧ ∀ c ∈ gap, c = ' ' ∨ c = '\t') ∧
    ∀ line ∈ ["* Test Cases  \t***\r".toList, "* Test Cases  \t***".toList],
      (read (some .keywords) 7 line).1.kind = .header .testCases ∧
        (read (some .keywords) 7 line).2 = some .testCases := by
  intro words gaps
  have hwords : ∀ w ∈ words, ∀ c ∈ w, c ≠ ' ' ∧ c ≠ '\t' ∧ c ≠ '\n' := by simp [words]
  have hstar : ∃ w ∈ words.head?, w.head? = some '*' := ⟨['*'], rfl, rfl⟩
  have hhash : ∀ w ∈ words, w.head? ≠ some '#' := by decide
  have hgaps : ∀ gap ∈ gaps, gap ≠ [] ∧ ∀ c ∈ gap, c = ' ' ∨ c = '\t' := by simp [gaps]
  have hlength : gaps.length + 1 = words.length := rfl
  have htrail : ∀ c ∈ ([] : Text), c = ' ' ∨ c = '\t' := by simp
  have htable : Table.ofHeader ([' '].intercalate words) = .testCases := by decide +kernel
  have hread := read_joined hwords hstar hhash hlength hgaps htrail (some .keywords) 7
  rw [htable] at hread
  exact ⟨⟨hwords, hstar, hhash, hlength, hgaps⟩, hread⟩

end Row

end KeywordCompletion
