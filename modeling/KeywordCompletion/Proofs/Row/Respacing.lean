import KeywordCompletion.Proofs.Row.Format

/-!
# Rows with other separators

The cells of a row and its comment, joined with any separators between them, are the cells and the comment of
the joined row: `rowTexts_joined`. A backslash at the end of a cell would protect the blank behind it, but only the
last cell of a row can end in one that is not protected itself, and then only if the row ends there.
-/

namespace KeywordCompletion

open Text Token

variable {base n : Nat} {t v gap rest trail line : Text} {vs parts gaps : List Text} {comment : Option Text}

/-- The texts of the cells of a row that starts at byte `base`, and that of its comment. -/
def rowTexts (base : Nat) (line : Text) : List Text × Option Text :=
  ((splitCells line base).1.map Cell.value, (splitCells line base).2.map Cell.value)

/-- A text that separates cells. -/
structure IsGap (gap : Text) : Prop where
  blank : ∀ c ∈ gap, isBlank c = true
  wide : isSeparatorRun gap = true

/-- Texts with gaps between them. -/
def joined : List Text → List Text → Text
  | part :: parts, gap :: gaps => part ++ (gap ++ joined parts gaps)
  | parts, _ => parts.flatten

/-- The texts of the cells of a row, an empty one at its head left out. -/
def cellTexts (t : Text) : List Text := (cellsIn 0 (lex t)).map Cell.value

/-- The text of the comment of a row. -/
def commentText (t : Text) : Option Text := (commentIn 0 (lex t)).map Cell.value

lemma map_value_cellsIn_lexFrom (base n : Nat) (t : Text) :
    (cellsIn base (lexFrom n t)).map Cell.value = cellTexts t := by
  rw [lexFrom_eq_map_shift]
  exact map_value_cellsIn base n (lex t)

lemma map_value_commentIn_lexFrom (base n : Nat) (t : Text) :
    (commentIn base (lexFrom n t)).map Cell.value = commentText t := by
  rw [lexFrom_eq_map_shift]
  exact map_value_commentIn base n (lex t)

/-- What the cells and the comment of a row can be like, if there are any and no empty cell stands at its head. -/
inductive Readable : List Text → Option Text → Prop
  | comment {value : Text} (h : IsCommentText value []) : Readable [] (some value)
  | last {v : Text} (hv : FillsCell v) (hfeed : '\n' ∉ v) : Readable [v] none
  | cell {v : Text} {vs : List Text} {comment : Option Text} (hv : FillsCell v) (hfeed : '\n' ∉ v)
    (hfree : protects v = false) (h : Readable vs comment) : Readable (v :: vs) comment

lemma IsGap.ne_nil (h : IsGap gap) : gap ≠ [] := by
  rintro rfl
  exact absurd h.wide (by decide)

lemma lexFrom_blanks_append (hne : gap ≠ []) (hblank : ∀ c ∈ gap, isBlank c = true)
    (hrest : ∀ c ∈ rest.head?, isBlank c = false) (n : Nat) :
    lexFrom n (gap ++ rest) = ⟨.blank, gap, n⟩ :: lexFrom (n + size gap) rest := by
  obtain ⟨c, gap, rfl⟩ := List.exists_cons_of_ne_nil hne
  rw [List.forall_mem_cons] at hblank
  obtain ⟨htake, hdrop⟩ := takeWhile_append_eq_iff.2 ⟨hblank.2, hrest⟩
  apply lexFrom_of_munch
  rw [List.cons_append, munch_cons_of_isBlank hblank.1, htake, hdrop]

lemma IsGap.lexFrom_append (h : IsGap gap) (hrest : ∀ c ∈ rest.head?, isBlank c = false) (n : Nat) :
    lexFrom n (gap ++ rest) = ⟨.blank, gap, n⟩ :: lexFrom (n + size gap) rest :=
  lexFrom_blanks_append h.ne_nil h.blank hrest n

lemma IsGap.isSeparator (h : IsGap gap) (n : Nat) : Token.isSeparator ⟨.blank, gap, n⟩ = true := by
  simp [Token.isSeparator, h.wide]

lemma IsGap.endsCell (h : IsGap gap) (hrest : ∀ c ∈ rest.head?, isBlank c = false) : EndsCell (gap ++ rest) := by
  rw [EndsCell, lex, h.lexFrom_append hrest]
  rintro x ⟨⟩
  exact h.isSeparator 0

/-- A text without a line feed that protects nothing ends in no lone backslash. -/
lemma text_ne_backslash (hfeed : '\n' ∉ v) (hfree : protects v = false) :
    ∀ x ∈ (lex v).getLast?, x.text ≠ ['\\'] := by
  intro x hx htext
  obtain ⟨ts, hts⟩ := List.getLast?_eq_some_iff.1 hx
  obtain ⟨a, b, rfl, -, hb, hjoins⟩ := exists_append_of_lexFrom hts
  obtain ⟨rest, rfl, -, -, hrest⟩ := munch_of_lexFrom hb
  obtain rfl := lexFrom_eq_nil_iff.1 hrest
  rw [htext, List.append_nil] at *
  rw [protects_append (protects_of_joins hfeed (by simp) hjoins)] at hfree
  exact absurd hfree (by decide)

lemma joins_of_blank (hv : FillsCell v) (hfeed : '\n' ∉ v) (hfree : protects v = false)
    (hblank : ∀ c ∈ t.head?, isBlank c = true) : Joins v t := by
  intro x hx c hc
  exact takes_eq_false (List.mem_of_getLast? hx) (hv.closes x hx) (text_ne_backslash hfeed hfree x hx) (hblank c hc)

lemma exists_lex_hash (t : Text) : ∃ x xs, lex ('#' :: t) = x :: xs ∧ x.opensComment = true :=
  ⟨_, _, lexFrom_of_munch (munch_cons_of_isPlain (c := '#') (by decide) t) 0, rfl⟩

lemma texts_of_comment {value : Text} (h : IsCommentText value trail) :
    cellTexts (value ++ trail) = [] ∧ commentText (value ++ trail) = some value := by
  have htrim : trimEnd isBlank (value ++ trail) = value := by
    rw [trimEnd_append_of_forall value h.after, trimEnd_eq_self]
    cases hlast : value.getLast? with
    | none => rfl
    | some c => exact h.closes c hlast
  have hcomment : comment? 0 (lex (value ++ trail)) = some ⟨value, 0 + 0, 0 + 0 + size value⟩ := by
    have hne : value ++ trail ≠ [] := by
      intro hnil
      have hopens := h.opens
      rw [(List.append_eq_nil_iff.1 hnil).1] at hopens
      cases hopens
    rw [lex, comment?_lexFrom 0 0 hne, htrim]
  obtain ⟨more, rfl⟩ := List.head?_eq_some_iff.1 h.opens
  obtain ⟨x, xs, hlex, hopens⟩ := exists_lex_hash (more ++ trail)
  have hcells : cellsIn 0 ([] ++ x :: xs) = [] := cellsIn_of_opensComment (by simp) (by simp) hopens
  have hcut : cutComment true ([] ++ x :: xs) = ([], x :: xs) := cutComment_blanks (by simp) hopens
  rw [List.nil_append] at hcells hcut
  rw [cellTexts, commentText, commentIn, List.cons_append, hlex, hcells, hcut, ← hlex, ← List.cons_append, hcomment]
  exact ⟨rfl, rfl⟩

lemma trimBlanks_append_blank {ts : List Token} {x : Token} (hhead : ∀ y ∈ ts.head?, y.kind ≠ .blank)
    (hlast : ∀ y ∈ ts.getLast?, y.kind ≠ .blank) (hne : ts ≠ []) (hx : x.kind = .blank) :
    trimBlanks (ts ++ [x]) = trimBlanks ts := by
  have hdrop (us : List Token) : (ts ++ us).dropWhile (fun t => t.kind == .blank) = ts ++ us := by
    obtain ⟨y, ts, rfl⟩ := List.exists_cons_of_ne_nil hne
    exact List.dropWhile_cons_of_neg (by simpa using hhead y rfl)
  have hnone := hdrop []
  rw [List.append_nil] at hnone
  rw [trimBlanks, trimBlanks, hdrop, hnone, List.reverse_append, List.reverse_singleton, List.singleton_append,
    List.dropWhile_cons_of_pos (by simp [hx])]

lemma texts_of_last (hv : FillsCell v) (hfeed : '\n' ∉ v) (htrail : ∀ c ∈ trail, isBlank c = true)
    (hfree : trail = [] ∨ protects v = false) :
    cellTexts (v ++ trail) = [v] ∧ commentText (v ++ trail) = none := by
  have hcolumn := hv.isColumn 0
  by_cases hnil : trail = []
  · rw [hnil, List.append_nil, cellTexts, commentText, lex, cellsIn_of_isColumn hcolumn,
      commentIn_of_isColumn hcolumn, hv.cell?_eq]
    exact ⟨rfl, rfl⟩
  have hjoins : Joins v trail :=
    joins_of_blank hv hfeed (hfree.resolve_left hnil) fun c hc => htrail c (List.mem_of_mem_head? hc)
  have htokens : lex (v ++ trail) = lexFrom 0 v ++ [⟨.blank, trail, 0 + size v⟩] := by
    have hblanks : lexFrom (0 + size v) (trail ++ []) = _ := lexFrom_blanks_append hnil htrail (by simp) _
    rw [List.append_nil, lexFrom_nil] at hblanks
    rw [lex, lexFrom_append hjoins, hblanks]
  rw [cellTexts, commentText, htokens]
  by_cases hwide : isSeparatorRun trail = true
  · have hsep := IsGap.isSeparator ⟨htrail, hwide⟩ (0 + size v)
    rw [cellsIn_append_cons hcolumn hsep, commentIn_append_cons hcolumn hsep, hv.cell?_eq]
    exact ⟨rfl, rfl⟩
  · have hhead : ∀ x ∈ (lexFrom 0 v).head?, x.kind ≠ .blank ∧ x.opensComment = false := hv.opens
    have hcolumn' : IsColumn (lexFrom 0 v ++ [⟨.blank, trail, 0 + size v⟩]) := by
      apply isColumn_of_head
      · intro x hx
        rcases List.mem_append.1 hx with hx | hx
        · exact hcolumn.separator x hx
        · rw [List.mem_singleton.1 hx, Token.isSeparator]
          simpa using hwide
      · rwa [List.head?_append_of_ne_nil _ (mt lexFrom_eq_nil_iff.1 hv.ne_nil)]
    have hcell : cell? 0 (lexFrom 0 v ++ [⟨.blank, trail, 0 + size v⟩]) = cell? 0 (lexFrom 0 v) := by
      rw [cell?, cell?, trimBlanks_append_blank (fun x hx => (hhead x hx).1) hv.closes
        (mt lexFrom_eq_nil_iff.1 hv.ne_nil) rfl]
    rw [cellsIn_of_isColumn hcolumn', commentIn_of_isColumn hcolumn', hcell, hv.cell?_eq]
    exact ⟨rfl, rfl⟩

lemma texts_of_cell (hv : FillsCell v) (hfeed : '\n' ∉ v) (hfree : protects v = false) (hgap : IsGap gap)
    (hrest : ∀ c ∈ rest.head?, isBlank c = false) :
    cellTexts (v ++ (gap ++ rest)) = v :: cellTexts rest ∧
      commentText (v ++ (gap ++ rest)) = commentText rest := by
  have hends := hgap.endsCell hrest
  have hjoins := joins_of_blank hv hfeed hfree hends.head?_isBlank
  have hbeyond : beyond (0 + size v) (gap ++ rest) = lexFrom (0 + size v + size gap) rest := by
    rw [beyond, hgap.lexFrom_append hrest]
    rfl
  rw [cellTexts, commentText, lex, cellsIn_of_fillsCell hv hends hjoins, commentIn_of_fillsCell hv hends hjoins,
    hbeyond, List.map_cons, map_value_cellsIn_lexFrom, map_value_commentIn_lexFrom]
  exact ⟨rfl, rfl⟩

lemma Readable.exists_head (h : Readable vs comment) :
    ∃ v parts, vs ++ comment.toList = v :: parts ∧ v ≠ [] ∧ ∀ c ∈ v.head?, isBlank c = false := by
  cases h with
  | @comment value h =>
    refine ⟨value, [], rfl, ?_, ?_⟩
    · rintro rfl
      cases h.opens
    · rw [h.opens]
      rintro c ⟨⟩
      decide
  | @last v hv => exact ⟨v, [], rfl, hv.ne_nil, hv.head?_not_isBlank⟩
  | @cell v vs comment hv => exact ⟨v, _, rfl, hv.ne_nil, hv.head?_not_isBlank⟩

lemma exists_joined_cons (v : Text) (parts gaps : List Text) : ∃ more, joined (v :: parts) gaps = v ++ more := by
  cases gaps with
  | nil => exact ⟨parts.flatten, rfl⟩
  | cons gap gaps => exact ⟨gap ++ joined parts gaps, rfl⟩

lemma Readable.head?_joined (h : Readable vs comment) (gaps : List Text) (trail : Text) :
    ∀ c ∈ (joined (vs ++ comment.toList) gaps ++ trail).head?, isBlank c = false := by
  obtain ⟨v, parts, hparts, hne, hhead⟩ := h.exists_head
  obtain ⟨more, hmore⟩ := exists_joined_cons v parts gaps
  rwa [hparts, hmore, List.append_assoc, List.head?_append_of_ne_nil _ hne]

lemma Readable.texts_joined (h : Readable vs comment) (hlength : gaps.length + 1 = (vs ++ comment.toList).length)
    (hgaps : ∀ gap ∈ gaps, IsGap gap) (htrail : ∀ c ∈ trail, isBlank c = true)
    (hlast : trail = [] ∨ comment ≠ none ∨ ∀ v ∈ vs.getLast?, protects v = false) :
    cellTexts (joined (vs ++ comment.toList) gaps ++ trail) = vs ∧
      commentText (joined (vs ++ comment.toList) gaps ++ trail) = comment := by
  induction h generalizing gaps with
  | @comment value h =>
    obtain rfl : gaps = [] := by simpa using hlength
    have hvalue : IsCommentText value trail := ⟨h.opens, h.closes, htrail⟩
    simpa [joined] using texts_of_comment hvalue
  | @last v hv hfeed =>
    obtain rfl : gaps = [] := by simpa using hlength
    have hfree : trail = [] ∨ protects v = false := by simpa using hlast
    simpa [joined] using texts_of_last hv hfeed htrail hfree
  | @cell v vs comment hv hfeed hfree h ih =>
    obtain ⟨w, parts, hparts, -, -⟩ := h.exists_head
    cases gaps with
    | nil => simp [hparts] at hlength
    | cons gap gaps =>
      rw [List.forall_mem_cons] at hgaps
      have hlast' : trail = [] ∨ comment ≠ none ∨ ∀ v ∈ vs.getLast?, protects v = false := by
        refine hlast.imp_right fun h => h.imp_right fun h u hu => h u ?_
        rw [List.getLast?_cons, Option.mem_def.1 hu]
        rfl
      obtain ⟨hcells, hcomment⟩ := ih (by simpa using hlength) hgaps.2 hlast'
      have htexts := texts_of_cell hv hfeed hfree hgaps.1 (h.head?_joined gaps trail)
      rw [hcells, hcomment] at htexts
      simpa [joined, List.append_assoc] using htexts

lemma isCommentText_of_mem (hfeed : '\n' ∉ line) : ∀ value ∈ commentText line, IsCommentText value [] := by
  intro value hvalue
  obtain ⟨c, hc, rfl⟩ := Option.map_eq_some_iff.1 hvalue
  obtain ⟨-, v, -, -, h⟩ := (laid_splitCells 0 hfeed).comment_text c hc
  exact ⟨h.opens, h.closes, by simp⟩

lemma readable_of_line (hfeed : '\n' ∉ line) :
    (cellTexts line = [] ∧ commentText line = none) ∨ Readable (cellTexts line) (commentText line) := by
  have hcomment (t : Text) (hfeed : '\n' ∉ t) (hcells : cellTexts t = []) :
      (cellTexts t = [] ∧ commentText t = none) ∨ Readable (cellTexts t) (commentText t) := by
    have hvalue := isCommentText_of_mem hfeed
    rw [hcells]
    cases hc : commentText t with
    | none => exact Or.inl ⟨rfl, rfl⟩
    | some value => exact Or.inr (.comment (hvalue value hc))
  induction hlen : line.length using Nat.strong_induction_on generalizing line with
  | _ len ih =>
  rcases exists_firstSeparator (lex line) with hnone | ⟨pre, sep, post, hlex, hs, hpre⟩
  · by_cases hcolumn : (cutComment true (lex line)).2 = []
    · have hcolumn : IsColumn (lex line) := ⟨hnone, hcolumn⟩
      rw [cellTexts, commentText, cellsIn_of_isColumn hcolumn, commentIn_of_isColumn hcolumn]
      cases hc : cell? 0 (lex line) with
      | none => exact Or.inl ⟨rfl, rfl⟩
      | some c =>
        obtain ⟨lead, trail, h⟩ := exists_holds hc
        have hvalue : '\n' ∉ c.value := fun hmem => hfeed (by simp [h.text, hmem])
        exact Or.inr (.last (fillsCell_of_holds h hcolumn) hvalue)
    · obtain ⟨blanks, x, more, hts, hblanks, hx⟩ := exists_opensComment hnone hcolumn
      apply hcomment line hfeed
      rw [cellTexts, hts, cellsIn_of_opensComment (fun y hy => hnone y ?_) hblanks hx]
      · rfl
      · rw [hts]
        exact List.mem_append_left _ hy
  by_cases hcolumn : (cutComment true pre).2 = []
  · have hcolumn : IsColumn pre := ⟨hpre, hcolumn⟩
    have hlast := kind_ne_blank_of_getLast? hlex (kind_of_isSeparator hs)
    obtain ⟨head, b, rfl, rfl, hb, hjoins⟩ := exists_append_of_lexFrom hlex
    have hb' : lexFrom (0 + size head) b = [sep] ++ post := hb
    obtain ⟨gap, rest, rfl, hgap, rfl, -⟩ := exists_append_of_lexFrom hb'
    have hgapne : gap ≠ [] := by
      rintro rfl
      simp at hgap
    have hshort : rest.length < len := by
      have hpos := List.length_pos_iff.2 hgapne
      simp only [List.length_append] at hlen
      omega
    have hrest := ih rest.length hshort (fun hmem => hfeed (by simp [hmem])) rfl
    rw [cellTexts, commentText, hlex, cellsIn_append_cons hcolumn hs, commentIn_append_cons hcolumn hs,
      List.map_append, map_value_cellsIn_lexFrom, map_value_commentIn_lexFrom]
    cases hc : cell? 0 (lexFrom 0 head) with
    | none => exact hrest
    | some c =>
      obtain ⟨lead, trail, h⟩ := exists_holds hc
      obtain rfl := h.trail_eq_nil hlast
      have hv := fillsCell_of_holds h hcolumn
      have hvalue : '\n' ∉ c.value := fun hmem => hfeed (by simp [h.text, hmem])
      have hfree : protects c.value = false := by
        have hfree := protects_of_joins hfeed (by simp [hgapne]) hjoins
        have hlead := protects_of_blanks (isBlank_of_lexFrom h.lead_blank)
        rwa [h.text, List.append_nil, protects_append hlead] at hfree
      right
      rcases hrest with ⟨hcells, hnone⟩ | hrest
      · rw [hcells, hnone]
        exact .last hv hvalue
      · exact .cell hv hvalue hfree hrest
  · obtain ⟨blanks, x, more, rfl, hblanks, hx⟩ := exists_opensComment hpre hcolumn
    apply hcomment line hfeed
    rw [List.append_assoc] at hlex
    rw [cellTexts, hlex, List.cons_append,
      cellsIn_of_opensComment (fun y hy => hpre y (List.mem_append_left _ hy)) hblanks hx]
    rfl

lemma exists_gap_or (line : Text) :
    (∃ gap rest, line = gap ++ rest ∧ IsGap gap ∧ ∀ c ∈ rest.head?, isBlank c = false) ∨
      ∀ x ∈ (lex line).head?, x.isSeparator = false := by
  cases hts : lex line with
  | nil => exact Or.inr (by simp)
  | cons x xs =>
    cases hs : x.isSeparator with
    | false => exact Or.inr (by simpa using hs)
    | true =>
      left
      have hkind := kind_of_isSeparator hs
      have hblank := isBlank_of_mem_text hts hkind
      obtain ⟨rest, rfl, hmunch, -, -⟩ := munch_of_lexFrom hts
      refine ⟨x.text, rest, rfl, ⟨hblank, ?_⟩, ?_⟩
      · simp only [Token.isSeparator, Bool.and_eq_true] at hs
        exact hs.2
      · rw [munch_append_iff, hkind] at hmunch
        exact hmunch.2

lemma rowTexts_of_gap (hgap : IsGap gap) (hrest : ∀ c ∈ rest.head?, isBlank c = false) :
    rowTexts 0 (gap ++ rest) = ([] :: cellTexts rest, commentText rest) := by
  have hlex : lex (gap ++ rest) = [] ++ ⟨.blank, gap, 0⟩ :: lexFrom (0 + size gap) rest := hgap.lexFrom_append hrest 0
  have hcolumn : IsColumn [] := ⟨by simp, rfl⟩
  rw [rowTexts, splitCells_of_separator hlex hcolumn (hgap.isSeparator 0), List.map_append,
    map_value_cellsIn_lexFrom, map_value_commentIn_lexFrom]
  rfl

lemma rowTexts_of_head? (h : ∀ x ∈ (lex line).head?, x.isSeparator = false) :
    rowTexts 0 line = (cellTexts line, commentText line) := by
  have hempty : emptyFirst 0 (segments (cutComment true (lex line)).1) = [] := by
    cases hts : lex line with
    | nil => rfl
    | cons x xs => exact emptyFirst_eq_nil (h x (by rw [hts]; rfl))
  rw [rowTexts, splitCells_eq, hempty]
  rfl

lemma isSeparator_head? (h : ∀ c ∈ line.head?, isBlank c = false) :
    ∀ x ∈ (lex line).head?, x.isSeparator = false := by
  intro x hx
  obtain ⟨xs, hxs⟩ := List.head?_eq_some_iff.1 hx
  by_contra hs
  cases line with
  | nil => simp [lex] at hxs
  | cons c line =>
    have hblank := (kind_eq_blank_iff hxs).1 (kind_of_isSeparator (by simpa using hs))
    rw [h c rfl] at hblank
    cases hblank

lemma rowTexts_eq_zero (base : Nat) (line : Text) : rowTexts base line = rowTexts 0 line :=
  Prod.ext (map_value_splitCells base line).1 (map_value_splitCells base line).2

/-- Joined with any separators, with any blanks behind them if no backslash protects these, the cells of a row and
its comment are the cells and the comment of the row that they make. -/
theorem rowTexts_joined {base base' : Nat} (hfeed : '\n' ∉ line)
    (hrow : (rowTexts base line).2 ≠ none ∨ ∃ v ∈ (rowTexts base line).1, v ≠ [])
    (hlength : gaps.length + 1 = ((rowTexts base line).1 ++ (rowTexts base line).2.toList).length)
    (hgaps : ∀ gap ∈ gaps, IsGap gap) (htrail : ∀ c ∈ trail, isBlank c = true)
    (hlast : trail = [] ∨ (rowTexts base line).2 ≠ none ∨
      ∀ v ∈ (rowTexts base line).1.getLast?, protects v = false) :
    rowTexts base' (joined ((rowTexts base line).1 ++ (rowTexts base line).2.toList) gaps ++ trail) =
      rowTexts base line := by
  simp only [rowTexts_eq_zero base, rowTexts_eq_zero base'] at *
  rcases exists_gap_or line with ⟨gap, rest, rfl, hgap, hrest⟩ | hhead
  · rw [rowTexts_of_gap hgap hrest] at *
    rcases readable_of_line (fun hmem => hfeed (List.mem_append_right _ hmem)) with ⟨hcells, hnone⟩ | h
    · simp [hcells, hnone] at hrow
    · obtain ⟨v, parts, hparts, -, -⟩ := h.exists_head
      cases gaps with
      | nil => simp [hparts] at hlength
      | cons first gaps =>
        rw [List.forall_mem_cons] at hgaps
        have hlast' : trail = [] ∨ commentText rest ≠ none ∨ ∀ v ∈ (cellTexts rest).getLast?, protects v = false := by
          refine hlast.imp_right fun h => h.imp_right fun h u hu => h u ?_
          rw [List.getLast?_cons, Option.mem_def.1 hu]
          rfl
        have htexts := h.texts_joined (by simpa using hlength) hgaps.2 htrail hlast'
        have hjoined := rowTexts_of_gap hgaps.1 (h.head?_joined gaps trail)
        rw [htexts.1, htexts.2] at hjoined
        simpa [joined, List.append_assoc] using hjoined
  · rw [rowTexts_of_head? hhead] at *
    rcases readable_of_line hfeed with ⟨hcells, hnone⟩ | h
    · simp [hcells, hnone] at hrow
    · have htexts := h.texts_joined hlength hgaps htrail hlast
      rw [rowTexts_of_head? (isSeparator_head? (h.head?_joined gaps trail)), htexts.1, htexts.2]

instance (gap : Text) : Decidable (IsGap gap) :=
  decidable_of_iff (gap.all isBlank = true ∧ isSeparatorRun gap = true)
    ⟨fun ⟨h, hw⟩ => ⟨List.all_eq_true.1 h, hw⟩, fun ⟨h, hw⟩ => ⟨List.all_eq_true.2 h, hw⟩⟩

/-- An empty cell, a cell that ends in a protected blank, one with a protected hash and a comment. -/
theorem rowTexts_joined_escaped :
    let line := "  Log\\   a\\#b c\t# d".toList
    '\n' ∉ line ∧ rowTexts 5 line = (["", "Log\\ ", "a\\#b c"].map String.toList, some "# d".toList) ∧
    rowTexts 9 " \tLog\\ \ta\\#b c   # d \t".toList = rowTexts 5 line := by
  have hfeed : '\n' ∉ "  Log\\   a\\#b c\t# d".toList := by decide
  have htexts : rowTexts 5 "  Log\\   a\\#b c\t# d".toList =
      (["", "Log\\ ", "a\\#b c"].map String.toList, some "# d".toList) := by
    decide +kernel
  refine ⟨hfeed, htexts, ?_⟩
  have hjoined := @rowTexts_joined " \t".toList _ ([" \t", "\t", "   "].map String.toList) 5 9 hfeed
    (by rw [htexts]; decide) (by rw [htexts]; rfl) (by decide) (List.all_eq_true.1 (by decide))
    (by rw [htexts]; decide)
  rw [htexts] at hjoined
  rw [htexts]
  exact hjoined

end KeywordCompletion
