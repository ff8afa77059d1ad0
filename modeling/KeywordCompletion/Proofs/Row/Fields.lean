import KeywordCompletion.Proofs.Row.Columns

/-!
# Rows with a name and a keyword

A row whose name column is followed by a separator is read from left to right: the name, then what is
behind the separator. A text that fills a cell is the next cell whenever a separator or the end of the
row follows it.
-/

namespace KeywordCompletion

open Token

variable {base m : Nat} {t head gap rest tail k : Text} {name : Cell}

/-- A text that is a cell as a whole wherever it stands between separators. -/
structure FillsCell (k : Text) : Prop where
  ne_nil : k ≠ []
  separator : ∀ x ∈ lex k, x.isSeparator = false
  opens : ∀ x ∈ (lex k).head?, x.kind ≠ .blank ∧ x.opensComment = false
  closes : ∀ x ∈ (lex k).getLast?, x.kind ≠ .blank

instance : DecidablePred FillsCell := fun k =>
  decidable_of_iff (k ≠ [] ∧ (∀ x ∈ lex k, x.isSeparator = false) ∧
      (∀ x ∈ (lex k).head?, x.kind ≠ .blank ∧ x.opensComment = false) ∧
      ∀ x ∈ (lex k).getLast?, x.kind ≠ .blank)
    ⟨fun ⟨h, hs, ho, hc⟩ => ⟨h, hs, ho, hc⟩, fun ⟨h, hs, ho, hc⟩ => ⟨h, hs, ho, hc⟩⟩

lemma fillsCell_of_lexFrom (hne : k ≠ []) (hsep : ∀ x ∈ lexFrom m k, x.isSeparator = false)
    (hopens : ∀ x ∈ (lexFrom m k).head?, x.kind ≠ .blank ∧ x.opensComment = false)
    (hcloses : ∀ x ∈ (lexFrom m k).getLast?, x.kind ≠ .blank) : FillsCell k := by
  rw [lexFrom_eq_map_shift] at hsep hopens hcloses
  refine ⟨hne, ?_, ?_, ?_⟩
  · intro x hx
    exact hsep (x.shift m) (List.mem_map_of_mem hx)
  · intro x hx
    exact hopens (x.shift m) (by simp [List.head?_map, Option.mem_def.1 hx])
  · intro x hx
    exact hcloses (x.shift m) (by simp [List.getLast?_map, Option.mem_def.1 hx])

namespace FillsCell

lemma isColumn (h : FillsCell k) (m : Nat) : IsColumn (lexFrom m k) := by
  rw [lexFrom_eq_map_shift]
  refine isColumn_of_head ?_ ?_
  · intro x hx
    obtain ⟨y, hy, rfl⟩ := List.mem_map.1 hx
    exact h.separator y hy
  · intro x hx
    rw [← lexFrom_eq_map_shift] at hx
    obtain ⟨y, hy, rfl⟩ := exists_of_head?_lexFrom hx
    exact h.opens y hy

lemma cell?_eq (h : FillsCell k) (base m : Nat) :
    cell? base (lexFrom m k) = some ⟨k, base + m, base + m + Text.size k⟩ := by
  refine cell?_lexFrom h.ne_nil ?_ ?_
  · intro x hx
    obtain ⟨y, hy, rfl⟩ := exists_of_head?_lexFrom hx
    exact (h.opens y hy).1
  · intro x hx
    obtain ⟨y, hy, rfl⟩ := exists_of_getLast?_lexFrom hx
    exact h.closes y hy

lemma head?_not_isBlank (h : FillsCell k) : ∀ c ∈ k.head?, Text.isBlank c = false := by
  intro c hc
  obtain ⟨k, rfl⟩ := List.head?_eq_some_iff.1 hc
  obtain ⟨x, xs, hx⟩ := exists_lexFrom_eq_cons 0 (List.cons_ne_nil c k)
  have hkind := (h.opens x (by rw [lex, hx]; rfl)).1
  rw [Ne, kind_eq_blank_iff hx, Bool.not_eq_true] at hkind
  exact hkind

end FillsCell

/-- A text that may follow a cell: it is empty or starts with a separator. -/
def EndsCell (tail : Text) : Prop := ∀ x ∈ (lex tail).head?, x.isSeparator = true

lemma endsCell_nil : EndsCell [] := by simp [EndsCell, lex]

lemma endsCell_of_lexFrom (h : ∀ x ∈ (lexFrom m tail).head?, x.isSeparator = true) : EndsCell tail := by
  intro x hx
  rw [lexFrom_eq_map_shift] at h
  exact h (x.shift m) (by simp [List.head?_map, Option.mem_def.1 hx])

/-- The tokens behind the separator that a text starts with. -/
def beyond (m : Nat) (tail : Text) : List Token := (lexFrom m tail).tail

lemma EndsCell.lexFrom_eq (h : EndsCell tail) (m : Nat) :
    tail = [] ∨ ∃ sep, sep.isSeparator = true ∧ lexFrom m tail = sep :: beyond m tail := by
  by_cases hne : tail = []
  · exact Or.inl hne
  · obtain ⟨x, xs, hx⟩ := exists_lexFrom_eq_cons 0 hne
    have hlex : lex tail = x :: xs := hx
    refine Or.inr ⟨x.shift m, h x (by rw [hlex]; rfl), ?_⟩
    rw [beyond, lexFrom_eq_map_shift, hlex]
    rfl

lemma EndsCell.head?_isBlank (h : EndsCell tail) : ∀ c ∈ tail.head?, Text.isBlank c = true := by
  intro c hc
  obtain ⟨more, rfl⟩ := List.head?_eq_some_iff.1 hc
  rcases h.lexFrom_eq 0 with hnil | ⟨sep, hsep, hlex⟩
  · cases hnil
  · exact (kind_eq_blank_iff hlex).1 (kind_of_isSeparator hsep)

/-- A text that fills a cell keeps its tokens where it ends as a cell, unless it ends with a backslash that
protects nothing. -/
lemma joins_of_fillsCell (hk : FillsCell k) (hlone : ∀ x ∈ (lex k).getLast?, x.text ≠ ['\\'])
    (htail : EndsCell tail) : Joins k tail := by
  intro x hx c hc
  exact takes_eq_false (List.mem_of_getLast? hx) (hk.closes x hx) (hlone x hx) (htail.head?_isBlank c hc)

/-- A text that fills a cell is the first cell where nothing or a separator follows it. -/
lemma cellsIn_of_fillsCell (hk : FillsCell k) (htail : EndsCell tail) (hjoins : Joins k tail) :
    cellsIn base (lexFrom m (k ++ tail)) = ⟨k, base + m, base + m + Text.size k⟩ ::
      cellsIn base (beyond (m + Text.size k) tail) := by
  rw [lexFrom_append hjoins]
  rcases htail.lexFrom_eq (m + Text.size k) with rfl | ⟨sep, hsep, htokens⟩
  · rw [beyond, lexFrom_nil, List.append_nil, cellsIn_of_isColumn (hk.isColumn m), hk.cell?_eq]
    rfl
  · rw [htokens, cellsIn_append_cons (hk.isColumn m) hsep, hk.cell?_eq]
    rfl

lemma commentIn_of_fillsCell (hk : FillsCell k) (htail : EndsCell tail) (hjoins : Joins k tail) :
    commentIn base (lexFrom m (k ++ tail)) = commentIn base (beyond (m + Text.size k) tail) := by
  rw [lexFrom_append hjoins]
  rcases htail.lexFrom_eq (m + Text.size k) with rfl | ⟨sep, hsep, htokens⟩
  · rw [beyond, lexFrom_nil, List.append_nil, commentIn_of_isColumn (hk.isColumn m)]
    rfl
  · rw [htokens, commentIn_append_cons (hk.isColumn m) hsep]

lemma beyond_eq_map_shift (m : Nat) (tail : Text) : beyond m tail = (beyond 0 tail).map (shift m) := by
  rw [beyond, beyond, lexFrom_eq_map_shift, List.map_tail]
  rfl

/-- The cells behind a separator do not depend on where it stands. -/
lemma map_value_cellsIn_beyond (base' m' : Nat) (tail : Text) :
    (cellsIn base' (beyond m' tail)).map Cell.value = (cellsIn base (beyond m tail)).map Cell.value := by
  rw [beyond_eq_map_shift m', beyond_eq_map_shift m]
  exact (@map_value_cellsIn base base' m' _).trans (@map_value_cellsIn base base m _).symm

lemma map_value_commentIn_beyond (base' m' : Nat) (tail : Text) :
    (commentIn base' (beyond m' tail)).map Cell.value =
      (commentIn base (beyond m tail)).map Cell.value := by
  rw [beyond_eq_map_shift m', beyond_eq_map_shift m]
  exact (@map_value_commentIn base base' m' _).trans (@map_value_commentIn base base m _).symm

/-- A name column with the separator behind it, in a row that starts at byte `base`. -/
structure NameColumn (base : Nat) (head gap : Text) (name : Cell) : Prop where
  column : IsColumn (lex head)
  first : firstCell base (lex head) = some name
  stop : name.stop = base + Text.size head
  separator : ∃ sep, lexFrom (Text.size head) gap = [sep] ∧ sep.isSeparator = true
  joins : Joins head gap

namespace NameColumn

lemma gap_ne_nil (h : NameColumn base head gap name) : gap ≠ [] := by
  obtain ⟨sep, htokens, -⟩ := h.separator
  rintro rfl
  simp at htokens

lemma isSeparatorRun_gap (h : NameColumn base head gap name) :
    (∀ c ∈ gap, Text.isBlank c = true) ∧ isSeparatorRun gap = true := by
  obtain ⟨sep, htokens, hsep⟩ := h.separator
  have htext := flatMap_text_lexFrom (Text.size head) gap
  rw [htokens, List.flatMap_singleton] at htext
  have hblank := isBlank_of_mem_text htokens (kind_of_isSeparator hsep)
  simp only [Token.isSeparator, Bool.and_eq_true, htext] at hsep
  exact ⟨by rwa [htext] at hblank, hsep.2⟩

lemma lex_eq (h : NameColumn base head gap name) (hrest : ∀ c ∈ rest.head?, Text.isBlank c = false) :
    ∃ sep, sep.isSeparator = true ∧ lex (head ++ (gap ++ rest)) =
      lex head ++ sep :: lexFrom (Text.size head + Text.size gap) rest := by
  obtain ⟨sep, htokens, hsep⟩ := h.separator
  have hhead : Joins head (gap ++ rest) := joins_append h.gap_ne_nil rest h.joins
  have hjoin : Joins gap rest := by
    rw [joins_iff (Text.size head)]
    intro x hx c hc
    obtain rfl : sep = x := by simpa [htokens] using hx
    rw [kind_of_isSeparator hsep]
    exact hrest c hc
  refine ⟨sep, hsep, ?_⟩
  rw [lex, lexFrom_append hhead, Nat.zero_add, lexFrom_append hjoin, htokens]
  rfl

lemma splitCells_eq (h : NameColumn base head gap name)
    (hrest : ∀ c ∈ rest.head?, Text.isBlank c = false) :
    splitCells (head ++ (gap ++ rest)) base =
      (name :: cellsIn base (lexFrom (Text.size head + Text.size gap) rest),
        commentIn base (lexFrom (Text.size head + Text.size gap) rest)) := by
  obtain ⟨sep, hsep, hlex⟩ := h.lex_eq hrest
  rw [splitCells_of_separator hlex h.column hsep, h.first]
  rfl

end NameColumn

/-- Behind the cell of a stretch without separators there is no separator. -/
lemma separatorAt_of_holds {lead trail : Text} (h : Holds base m t lead name trail)
    (hsep : ∀ x ∈ lexFrom m t, x.isSeparator = false) :
    separatorAt t (Text.size lead + Text.size name.value) = none := by
  have hdrop : Text.drop? t (Text.size lead + Text.size name.value) = some trail := by
    rw [h.text, ← List.append_assoc, ← Text.size_append]
    exact Text.drop?_size_append _ _
  have hrun : isSeparatorRun (trail.takeWhile Text.isBlank) = false := by
    cases hts : lexFrom (m + Text.size lead + Text.size name.value) trail with
    | nil =>
      rw [lexFrom_eq_nil_iff.1 hts]
      rfl
    | cons x us =>
      have hkind := h.trail_blank x (by rw [hts]; exact List.mem_cons_self)
      have hx := hsep x (by rw [h.tokens, hts]; simp)
      rw [← text_of_kind_eq_blank hts hkind]
      simpa [Token.isSeparator, hkind] using hx
  rw [separatorAt, hdrop]
  simp [hrun]

/-- What stands before the first separator of a row is a name column, if it holds no comment. -/
lemma exists_nameColumn_of_lex {sep : Token} (hcolumn : IsColumn (lex head))
    (hgap : lexFrom (Text.size head) gap = [sep]) (hsep : sep.isSeparator = true)
    (hjoins : Joins head gap)
    (hlast : ∀ x ∈ (lex head).getLast?, x.kind ≠ .blank) :
    ∃ name, NameColumn base head gap name := by
  by_cases hne : head = []
  · subst hne
    exact ⟨⟨[], base, base⟩, hcolumn, by simp [firstCell, lex], rfl, ⟨sep, hgap, hsep⟩, hjoins⟩
  · have hts : lex head ≠ [] := mt lexFrom_eq_nil_iff.1 hne
    obtain ⟨x, hx⟩ : ∃ x, (lex head).getLast? = some x := ⟨_, List.getLast?_eq_some_getLast hts⟩
    have hcell : ∃ c, cell? base (lex head) = some c :=
      exists_cell?_of_mem (List.mem_of_getLast? hx) (hlast x hx)
    obtain ⟨c, hc⟩ := hcell
    obtain ⟨lead, trail, h⟩ := exists_holds hc
    refine ⟨c, hcolumn, by rw [firstCell, if_neg hts, hc], ?_, ⟨sep, hgap, hsep⟩, hjoins⟩
    obtain rfl := h.trail_eq_nil hlast
    rw [h.stop, h.start, h.text]
    simp
    omega

/-- The first cell of a row is all of its text, without blanks around it, or a separator follows it. -/
theorem firstCell_cases (hname : (splitCells t base).1.head? = some name) :
    (IsColumn (lex t) ∧ cell? base (lex t) = some name) ∨
      ∃ head gap rest, t = head ++ (gap ++ rest) ∧ NameColumn base head gap name ∧
        ∀ c ∈ rest.head?, Text.isBlank c = false := by
  rcases exists_firstSeparator (lex t) with hnone | ⟨pre, sep, post, hlex, hs, hpre⟩
  · by_cases hcomment : (cutComment true (lex t)).2 = []
    · rw [splitCells_of_isColumn ⟨hnone, hcomment⟩] at hname
      exact Or.inl ⟨⟨hnone, hcomment⟩, by simpa using hname⟩
    · rw [splitCells_of_comment (List.append_nil _).symm hnone hcomment] at hname
      cases hname
  · by_cases hcomment : (cutComment true pre).2 = []
    · obtain ⟨head, b, rfl, hhead, hb, hjoins⟩ := exists_append_of_lexFrom hlex
      rw [Nat.zero_add] at hb
      have hb' : lexFrom (Text.size head) b = [sep] ++ post := hb
      obtain ⟨gap, rest, rfl, hgap, hrest, hgaps⟩ := exists_append_of_lexFrom hb'
      have hlast := kind_ne_blank_of_getLast? hlex (kind_of_isSeparator hs)
      rw [joins_iff (Text.size head), hgap] at hgaps
      have hblank : ∀ c ∈ rest.head?, Text.isBlank c = false := by
        intro c hc
        have htakes := hgaps sep rfl c hc
        rwa [kind_of_isSeparator hs] at htakes
      subst hhead
      obtain ⟨first, h⟩ := exists_nameColumn_of_lex ⟨hpre, hcomment⟩ hgap hs (joins_left hjoins) hlast
      rw [h.splitCells_eq hblank] at hname
      obtain rfl : first = name := by simpa using hname
      exact Or.inr ⟨head, gap, rest, rfl, h, hblank⟩
    · rw [splitCells_of_comment hlex hpre hcomment] at hname
      cases hname

/-- Where a separator follows the first cell of a row, the row has a name column. -/
theorem exists_nameColumn (hname : (splitCells t base).1.head? = some name)
    (hsep : (separatorAt t (name.stop - base)).isSome = true) :
    ∃ head gap rest, t = head ++ (gap ++ rest) ∧ NameColumn base head gap name ∧
      ∀ c ∈ rest.head?, Text.isBlank c = false := by
  rcases firstCell_cases hname with ⟨hcolumn, hcell⟩ | h
  · obtain ⟨lead, trail, h⟩ := exists_holds hcell
    have hstop : name.stop - base = Text.size lead + Text.size name.value := by
      rw [h.stop, h.start]
      omega
    rw [hstop, separatorAt_of_holds h hcolumn.separator] at hsep
    cases hsep
  · exact h

lemma fillsCell_of_holds {lead trail : Text} (h : Holds base m t lead name trail)
    (hcolumn : IsColumn (lexFrom m t)) : FillsCell name.value := by
  have hmem : ∀ x ∈ lexFrom (m + Text.size lead) name.value, x ∈ lexFrom m t := by
    intro x hx
    rw [h.tokens]
    exact List.mem_append_right _ (List.mem_append_left _ hx)
  refine fillsCell_of_lexFrom h.ne_nil (fun x hx => hcolumn.separator x (hmem x hx)) ?_ h.closes
  intro x hx
  refine ⟨h.opens x hx, ?_⟩
  by_contra hopens
  obtain ⟨more, hmore⟩ := List.head?_eq_some_iff.1 hx
  have hcomment := hcolumn.comment
  rw [h.tokens, hmore, List.cons_append, cutComment_blanks h.lead_blank (by simpa using hopens)] at hcomment
  cases hcomment

/-- The first cell of a row, if it has text, fills a cell wherever it is put. -/
theorem fillsCell_of_first (hname : (splitCells t base).1.head? = some name) (hne : name.value ≠ []) :
    FillsCell name.value ∧ ∀ c ∈ name.value, c ∈ t := by
  have hcolumn : ∃ head rest, t = head ++ rest ∧ IsColumn (lex head) ∧ cell? base (lex head) = some name := by
    rcases firstCell_cases hname with ⟨hcolumn, hcell⟩ | ⟨head, gap, rest, ht, h, -⟩
    · exact ⟨t, [], by simp, hcolumn, hcell⟩
    · refine ⟨head, gap ++ rest, ht, h.column, ?_⟩
      have hfirst := h.first
      rw [firstCell] at hfirst
      split at hfirst
      · obtain rfl : _ = name := Option.some.inj hfirst
        exact absurd rfl hne
      · exact hfirst
  obtain ⟨head, rest, ht, hcolumn, hcell⟩ := hcolumn
  obtain ⟨lead, trail, h⟩ := exists_holds hcell
  refine ⟨fillsCell_of_holds h hcolumn, fun c hc => ?_⟩
  rw [ht, h.text]
  simp [hc]

/-- What stands behind the separator that follows the name: nothing, a comment, the last cell of the row,
or a cell that a separator follows. -/
inductive Remainder (m : Nat) (rest : Text) : Prop
  | nothing (h : rest = [])
  | comment (x : Token) (xs : List Token) (h : lexFrom m rest = x :: xs) (hx : x.opensComment = true)
  | lastCell (h : IsColumn (lexFrom m rest)) (hne : rest ≠ [])
      (hhead : ∀ x ∈ (lexFrom m rest).head?, x.kind ≠ .blank)
  | cell (k tail : Text) (h : rest = k ++ tail) (hk : FillsCell k) (htail : EndsCell tail)
      (hjoins : Joins k tail)

theorem remainder (m : Nat) (hrest : ∀ c ∈ rest.head?, Text.isBlank c = false) : Remainder m rest := by
  cases rest with
  | nil => exact .nothing rfl
  | cons c rest =>
    obtain ⟨x, xs, hts⟩ := exists_lexFrom_eq_cons m (List.cons_ne_nil c rest)
    have hx : x.kind ≠ .blank := by
      rw [Ne, kind_eq_blank_iff hts, hrest c rfl]
      simp
    cases hcomment : x.opensComment with
    | true => exact .comment x xs hts hcomment
    | false =>
      rcases exists_firstSeparator (lexFrom m (c :: rest)) with hnone | ⟨pre, sep, post, hlex, hs, hpre⟩
      · refine .lastCell (isColumn_of_head hnone ?_) (List.cons_ne_nil c rest) ?_
        · rw [hts]
          simp [hx, hcomment]
        · rw [hts]
          simp [hx]
      · have hclose := kind_ne_blank_of_getLast? hlex (kind_of_isSeparator hs)
        have hopen : ∀ y ∈ pre.head?, y.kind ≠ .blank ∧ y.opensComment = false := by
          intro y hy
          obtain ⟨more, rfl⟩ := List.head?_eq_some_iff.1 hy
          obtain rfl : y = x := by
            rw [hts] at hlex
            exact (List.cons.inj hlex).1.symm
          exact ⟨hx, hcomment⟩
        have hne : pre ≠ [] := by
          rintro rfl
          obtain rfl : x = sep := by
            rw [hts] at hlex
            exact (List.cons.inj hlex).1
          exact hx (kind_of_isSeparator hs)
        obtain ⟨k, tail, hk, hpre', htail, hjoins⟩ := exists_append_of_lexFrom hlex
        subst hpre'
        refine .cell k tail hk ?_ ?_ hjoins
        · exact fillsCell_of_lexFrom (mt lexFrom_eq_nil_iff.2 hne) hpre hopen hclose
        · apply endsCell_of_lexFrom (m := m + Text.size k)
          rw [htail]
          simpa using hs

end KeywordCompletion
