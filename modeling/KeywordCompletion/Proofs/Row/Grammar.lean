import KeywordCompletion.Proofs.Row.Escapes
import KeywordCompletion.Proofs.Row.Fields
import KeywordCompletion.Proofs.Text.Slices
import KeywordCompletion.Proofs.Text.Trims

/-!
# The column format

`Laid` is the grammar of a row: cells with separators between them, then perhaps a comment, and an empty
cell before a separator at the head of the row. `laid_splitCells` says that `splitCells` reads every line by
it. What the format promises of cells, comment and gaps follows by induction on the grammar:
`columnFormat_splitCells`.
-/

namespace KeywordCompletion

open Text

/-- The cell or comment that stands behind `before` in a row that starts at byte `base`. -/
def Cell.behind (base : Nat) (before value : Text) : Cell :=
  ⟨value, base + size before, base + size before + size value⟩

/-- What a text must be like to be a cell where it stands. -/
structure IsCellText (before value : Text) : Prop where
  ne_nil : value ≠ []
  opens : ∀ c v, value = c :: v → isBlank c = false ∧ c ≠ '#'
  closes : ∀ u c, value = u ++ [c] → ¬ IsFreeBlank (before ++ u) c
  inside : ∀ u run v, value = u ++ (run ++ v) →
    (∀ u' c v', run = u' ++ c :: v' → IsFreeBlank (before ++ u ++ u') c) → isSeparatorRun run = false

/-- What a text must be like to be a comment up to the last character that is no blank. -/
structure IsCommentText (value after : Text) : Prop where
  opens : value.head? = some '#'
  closes : ∀ c ∈ value.getLast?, isBlank c = false
  after : ∀ c ∈ after, isBlank c = true

/-- The cells and the comment of what is left of a row behind `before`. -/
inductive Laid (base : Nat) : Text → Text → List Cell → Option Cell → Prop
  | blank {before rest : Text} (h : ∀ c ∈ rest, isBlank c = true) (hs : isSeparatorRun rest = false) :
    Laid base before rest [] none
  | comment {before lead value after : Text} (hlead : ∀ c ∈ lead, isBlank c = true)
    (hs : isSeparatorRun lead = false) (hvalue : IsCommentText value after) :
    Laid base before (lead ++ (value ++ after)) [] (some (.behind base (before ++ lead) value))
  | cell {before lead value gap rest : Text} {cells : List Cell} {comment : Option Cell}
    (hlead : ∀ c ∈ lead, isBlank c = true) (hs : isSeparatorRun lead = false)
    (hvalue : IsCellText (before ++ lead) value) (hgap : ∀ c ∈ gap, isBlank c = true)
    (hsep : rest ≠ [] → IsSeparator (before ++ lead ++ value) gap rest)
    (h : Laid base (before ++ lead ++ value ++ gap) rest cells comment) :
    Laid base before (lead ++ (value ++ (gap ++ rest))) (.behind base (before ++ lead) value :: cells)
      comment
  /-- A separator at the head of the row. -/
  | empty {gap rest : Text} {cells : List Cell} {comment : Option Cell} (hsep : IsSeparator [] gap rest)
    (h : Laid base gap rest cells comment) :
    Laid base [] (gap ++ rest) (.behind base [] [] :: cells) comment

section

open Token

variable {base n : Nat} {before rest t value : Text} {ts : List Token}

lemma isBlank_of_lexFrom (h : ∀ x ∈ lexFrom n t, x.kind = .blank) : ∀ c ∈ t, isBlank c = true := by
  generalize hts : lexFrom n t = ts at h
  induction ts generalizing n t with
  | nil =>
    rw [lexFrom_eq_nil_iff.1 hts]
    simp
  | cons x us ih =>
    rw [List.forall_mem_cons] at h
    obtain ⟨rest, rfl, -, -, hrest⟩ := munch_of_lexFrom hts
    intro c hc
    rcases List.mem_append.1 hc with hc | hc
    · exact isBlank_of_mem_text hts h.1 c hc
    · exact ih hrest h.2 c hc

/-- A text that fills a cell is a cell where nothing is protected. -/
lemma isCellText_of_fillsCell (h : FillsCell value) (hfeed : '\n' ∉ value) (hfree : protects before = false) :
    IsCellText before value := by
  refine ⟨h.ne_nil, ?_, ?_, ?_⟩
  · rintro c v rfl
    refine ⟨h.head?_not_isBlank c rfl, ?_⟩
    rintro rfl
    have hmunch := munch_cons_of_isPlain (c := '#') (by decide) v
    have hopens := (h.opens _ (by rw [lex, lexFrom_of_munch hmunch]; rfl)).2
    simp [opensComment] at hopens
  · rintro u c rfl ⟨hc, hu⟩
    rw [protects_append hfree] at hu
    obtain ⟨ts, x, hts⟩ := (List.eq_nil_or_concat (lex (u ++ [c]))).resolve_left (by simp [lex])
    rw [List.concat_eq_append] at hts
    have hkind := h.closes x (by simp [hts])
    obtain ⟨a, b, hab, -, hb, hjoins⟩ := exists_append_of_lexFrom hts
    obtain ⟨rest, hbx, hm, -, hrest⟩ := munch_of_lexFrom hb
    obtain rfl := lexFrom_eq_nil_iff.1 hrest
    rw [List.append_nil] at hbx
    subst hbx
    have hne := munch_ne_nil hm
    have ha : protects a = false := protects_of_joins (by rwa [← hab]) hne hjoins
    obtain ⟨w, d, hw⟩ := (List.eq_nil_or_concat x.text).resolve_left hne
    rw [List.concat_eq_append] at hw
    rw [hw, ← List.append_assoc] at hab
    obtain ⟨rfl, hd⟩ := List.append_inj' hab rfl
    obtain rfl : c = d := by simpa using hd
    rw [protects_append ha, (form_of_munch hm).protects_of_isBlank hkind hw hc] at hu
    cases hu
  · intro u run v hvalue hfrees
    rcases run with _ | ⟨c, run⟩
    · rfl
    have hu : protects u = false := by
      have hfirst := (hfrees [] c run rfl).2
      rwa [List.append_nil, protects_append hfree] at hfirst
    exact isSeparatorRun_eq_false (n := 0) hfeed h.separator hvalue (isBlank_of_free hfrees) hu

/-- Blanks without a separator among their tokens separate nothing. -/
lemma isSeparatorRun_of_lexFrom {lead : Text} (hfeed : '\n' ∉ lead) (hblank : ∀ c ∈ lead, isBlank c = true)
    (hsep : ∀ x ∈ lexFrom n lead, x.isSeparator = false) : isSeparatorRun lead = false :=
  isSeparatorRun_eq_false (u := []) (v := []) hfeed hsep (by simp) hblank rfl

/-- A token that is a separator is one in the text, where no blank stands before it. -/
lemma isSeparator_of_lexFrom {gap : Text} {sep : Token} (hgap : lexFrom n gap = [sep])
    (hsep : sep.isSeparator = true) (hjoins : Joins gap rest) (hfree : protects before = false)
    (hleft : ∀ u c, before = u ++ [c] → ¬ IsFreeBlank u c) : IsSeparator before gap rest := by
  have htext := flatMap_text_lexFrom n gap
  rw [hgap, List.flatMap_singleton] at htext
  have hblank := isBlank_of_mem_text hgap (kind_of_isSeparator hsep)
  simp only [Token.isSeparator, Bool.and_eq_true] at hsep
  rw [htext] at hblank hsep
  refine ⟨fun u c v => isFreeBlank_of_blanks hfree hblank, hleft, ?_, hsep.2⟩
  rintro c v rfl ⟨hc, -⟩
  rw [joins_iff n, hgap] at hjoins
  have htakes := hjoins sep rfl c rfl
  have hkind : sep.kind = .blank := by simpa using hsep.1
  rw [hkind] at htakes
  exact absurd hc (by simpa [TokenKind.takes] using htakes)

lemma comment?_lexFrom (base n : Nat) (hne : t ≠ []) :
    comment? base (lexFrom n t) =
      some ⟨trimEnd isBlank t, base + n, base + n + size (trimEnd isBlank t)⟩ := by
  obtain ⟨x, xs, hts⟩ := exists_lexFrom_eq_cons n hne
  obtain ⟨_, -, -, hstart, -⟩ := munch_of_lexFrom hts
  have htext : (x :: xs).flatMap Token.text = t := by rw [← hts, flatMap_text_lexFrom]
  simp only [hts, comment?, htext, hstart]

/-- A row of which the first token that is no blank opens a comment. -/
lemma laid_of_comment {blanks more : List Token} {x : Token} (hfeed : '\n' ∉ rest)
    (hts : lexFrom (size before) rest = blanks ++ x :: more) (hblanks : ∀ y ∈ blanks, y.kind = .blank)
    (hsep : ∀ y ∈ blanks, y.isSeparator = false) (hx : x.opensComment = true) :
    Laid base before rest (cellsIn base (lexFrom (size before) rest))
      (commentIn base (lexFrom (size before) rest)) := by
  obtain ⟨lead, w, rfl, rfl, hw, -⟩ := exists_append_of_lexFrom hts
  obtain ⟨after, hafter, hblank, hlast⟩ := exists_trimEnd_append isBlank w
  obtain ⟨v, rfl⟩ : ∃ v, w = '#' :: v := by
    obtain ⟨tail, rfl, -, -, -⟩ := munch_of_lexFrom hw
    simp only [opensComment, Bool.and_eq_true, beq_iff_eq] at hx
    obtain ⟨v, hv⟩ := List.head?_eq_some_iff.1 hx.2
    exact ⟨v ++ tail, by rw [hv]; rfl⟩
  rw [hts, cellsIn_of_opensComment hsep hblanks hx, commentIn, cutComment_blanks hblanks hx, ← hw,
    comment?_lexFrom _ _ (List.cons_ne_nil _ _)]
  generalize trimEnd isBlank ('#' :: v) = value at hafter hlast
  have hvalue : IsCommentText value after := by
    refine ⟨?_, hlast, hblank⟩
    cases value with
    | nil => exact absurd (hblank '#' (by rw [← List.nil_append after, ← hafter]; simp)) (by decide)
    | cons c value => rw [(List.cons.inj hafter).1, List.head?_cons]
  have hlead := isBlank_of_lexFrom hblanks
  rw [List.mem_append, not_or] at hfeed
  have hlaid : Laid base before _ [] _ :=
    .comment hlead (isSeparatorRun_of_lexFrom hfeed.1 hlead hsep) hvalue
  rw [← hafter] at hlaid
  rwa [Cell.behind, size_append] at hlaid

/-- The cell of a column stands behind blanks that separate nothing. -/
lemma isCellText_of_holds {lead trail : Text} {c : Cell} (hfeed : '\n' ∉ t) (hfree : protects before = false)
    (hcolumn : IsColumn (lexFrom (size before) t)) (h : Holds base (size before) t lead c trail) :
    (∀ d ∈ lead, isBlank d = true) ∧ isSeparatorRun lead = false ∧
      IsCellText (before ++ lead) c.value ∧ Cell.behind base (before ++ lead) c.value = c := by
  have hlead := isBlank_of_lexFrom h.lead_blank
  have hvalue : '\n' ∉ c.value := fun hmem => hfeed (by simp [h.text, hmem])
  refine ⟨hlead, isSeparatorRun_eq_false (u := []) hfeed hcolumn.separator h.text hlead rfl, ?_, ?_⟩
  · exact isCellText_of_fillsCell (fillsCell_of_holds h hcolumn) hvalue (protects_append_of_blanks hfree hlead)
  · rw [Cell.behind, size_append, ← h.start, ← h.stop]

lemma laid_of_isColumn (hfeed : '\n' ∉ rest) (hfree : rest ≠ [] → protects before = false)
    (h : IsColumn (lexFrom (size before) rest)) :
    Laid base before rest (cellsIn base (lexFrom (size before) rest))
      (commentIn base (lexFrom (size before) rest)) := by
  rw [cellsIn_of_isColumn h, commentIn_of_isColumn h]
  cases hc : cell? base (lexFrom (size before) rest) with
  | none =>
    have hblank : ∀ c ∈ rest, isBlank c = true := by
      refine isBlank_of_lexFrom (n := size before) fun x hx => ?_
      by_contra hkind
      have hsome : ∃ c, cell? base (lexFrom (size before) rest) = some c := exists_cell?_of_mem hx hkind
      obtain ⟨c, hsome⟩ := hsome
      rw [hc] at hsome
      cases hsome
    exact .blank hblank (isSeparatorRun_of_lexFrom hfeed hblank h.separator)
  | some c =>
    obtain ⟨lead, trail, hc⟩ := exists_holds hc
    have hrest := hc.text
    obtain ⟨hlead, hseparates, hvalue, hbehind⟩ :=
      isCellText_of_holds hfeed (hfree (by simp [hrest, hc.ne_nil])) h hc
    have hlaid : Laid base before (lead ++ (c.value ++ (trail ++ []))) [_] none :=
      .cell hlead hseparates hvalue (isBlank_of_lexFrom hc.trail_blank) (by simp) (.blank (by simp) rfl)
    rwa [List.append_nil, ← hrest, hbehind] at hlaid

/-- A cell with the separator behind it, before what is laid already. -/
lemma laid_of_separator {head gap : Text} {sep : Token} {cells : List Cell} {comment : Option Cell}
    (hfeed : '\n' ∉ head ++ (gap ++ rest)) (hfree : protects before = false) (hne : head ≠ [])
    (hcolumn : IsColumn (lexFrom (size before) head))
    (hlast : ∀ x ∈ (lexFrom (size before) head).getLast?, x.kind ≠ .blank)
    (hgap : lexFrom n gap = [sep]) (hs : sep.isSeparator = true)
    (hjoins : Joins head gap) (hgaps : Joins gap rest)
    (h : Laid base (before ++ head ++ gap) rest cells comment) :
    Laid base before (head ++ (gap ++ rest)) ((cell? base (lexFrom (size before) head)).toList ++ cells)
      comment := by
  have hgapne : gap ≠ [] := by
    rintro rfl
    simp at hgap
  obtain ⟨x, hx⟩ := Option.isSome_iff_exists.1 (List.getLast?_isSome.2 (mt lexFrom_eq_nil_iff.1 hne))
  have hcell : ∃ c, cell? base (lexFrom (size before) head) = some c :=
    exists_cell?_of_mem (List.mem_of_getLast? hx) (hlast x hx)
  obtain ⟨c, hc⟩ := hcell
  obtain ⟨lead, trail, hholds⟩ := exists_holds hc
  obtain rfl := hholds.trail_eq_nil hlast
  have hhead : head = lead ++ c.value := by simpa using hholds.text
  obtain ⟨hlead, hseparates, hvalue, hbehind⟩ :=
    isCellText_of_holds (fun hmem => hfeed (List.mem_append_left _ hmem)) hfree hcolumn hholds
  have hsep : IsSeparator (before ++ head) gap rest := by
    refine isSeparator_of_lexFrom hgap hs hgaps ?_ ?_
    · rw [← List.append_assoc] at hfeed
      rw [protects_append hfree]
      exact protects_of_joins (fun hmem => hfeed (List.mem_append_left _ hmem)) hgapne hjoins
    · intro u d hu
      obtain ⟨w, e, hw⟩ := (List.eq_nil_or_concat c.value).resolve_left hholds.ne_nil
      rw [List.concat_eq_append] at hw
      rw [hhead, hw, ← List.append_assoc, ← List.append_assoc] at hu
      obtain ⟨rfl, hd⟩ := List.append_inj' hu rfl
      obtain rfl : e = d := by simpa using hd
      exact hvalue.closes w e hw
  have hassoc : before ++ lead ++ c.value = before ++ head := by rw [hhead, List.append_assoc]
  have hlaid : Laid base before (lead ++ (c.value ++ (gap ++ rest)))
      (.behind base (before ++ lead) c.value :: cells) comment := by
    refine .cell hlead hseparates hvalue (isBlank_of_free hsep.free) ?_ ?_
    · rw [hassoc]
      exact fun _ => hsep
    · rwa [hassoc]
  rw [hbehind, ← List.append_assoc lead, ← hhead] at hlaid
  rw [hc]
  exact hlaid

lemma isSeparator_of_head? {sep : Token} {post : List Token} (h : lexFrom n t = sep :: post)
    (hsep : sep.isSeparator = true) : ∀ x ∈ post.head?, x.isSeparator = false := by
  intro x hx
  obtain ⟨more, rfl⟩ := List.head?_eq_some_iff.1 hx
  by_contra hseparator
  have hkind := kind_of_isSeparator (by simpa using hseparator)
  have hts : lexFrom n t = [sep] ++ x :: more := h
  exact kind_ne_blank_of_getLast? hts hkind sep rfl (kind_of_isSeparator hsep)

lemma protects_of_separator {gap : Text} {sep : Token} (hgap : lexFrom n gap = [sep])
    (hsep : sep.isSeparator = true) : protects gap = false := by
  have hblank : ∀ c ∈ gap, isBlank c = true := by
    refine isBlank_of_lexFrom (n := n) ?_
    rw [hgap, List.forall_mem_singleton]
    exact kind_of_isSeparator hsep
  exact protects_of_blanks hblank

/-- What is left of a row is laid out by the grammar, if no separator stands at its head. -/
lemma laid_of_lexFrom (hfeed : '\n' ∉ rest) (hfree : rest ≠ [] → protects before = false)
    (hhead : ∀ x ∈ (lexFrom (size before) rest).head?, x.isSeparator = false) :
    Laid base before rest (cellsIn base (lexFrom (size before) rest))
      (commentIn base (lexFrom (size before) rest)) := by
  induction hlen : rest.length using Nat.strong_induction_on generalizing before rest with
  | _ len ih =>
  rcases exists_firstSeparator (lexFrom (size before) rest) with hnone | ⟨pre, sep, post, hlex, hs, hpre⟩
  · by_cases hcomment : (cutComment true (lexFrom (size before) rest)).2 = []
    · exact laid_of_isColumn hfeed hfree ⟨hnone, hcomment⟩
    · obtain ⟨blanks, x, more, hts, hblanks, hx⟩ := exists_opensComment hnone hcomment
      refine laid_of_comment hfeed hts hblanks (fun y hy => hnone y ?_) hx
      rw [hts]
      exact List.mem_append_left _ hy
  by_cases hcomment : (cutComment true pre).2 = []
  · have hcolumn : IsColumn pre := ⟨hpre, hcomment⟩
    have hlast := kind_ne_blank_of_getLast? hlex (kind_of_isSeparator hs)
    have hprene : pre ≠ [] := by
      rintro rfl
      rw [hhead sep (by rw [hlex]; rfl)] at hs
      cases hs
    rw [hlex, cellsIn_append_cons hcolumn hs, commentIn_append_cons hcolumn hs]
    obtain ⟨head, b, rfl, rfl, hb, hjoins⟩ := exists_append_of_lexFrom hlex
    have hb' : lexFrom (size before + size head) b = [sep] ++ post := hb
    obtain ⟨gap, more, rfl, hgap, hmore, hgaps⟩ := exists_append_of_lexFrom hb'
    have hheadne : head ≠ [] := by
      rintro rfl
      exact hprene (lexFrom_nil _)
    have hfree' := hfree (by simp [hheadne])
    have hgapne : gap ≠ [] := by
      rintro rfl
      simp at hgap
    have hprotects : protects (before ++ head ++ gap) = false := by
      rw [List.append_assoc, protects_append hfree',
        protects_append (protects_of_joins hfeed (by simp [hgapne]) hjoins)]
      exact protects_of_separator hgap hs
    have hsize : size (before ++ head ++ gap) = size before + size head + size gap := by
      rw [size_append, size_append]
    have hshort : more.length < len := by
      have hpos := List.length_pos_iff.2 hgapne
      simp only [List.length_append] at hlen
      omega
    have hmoreHead : ∀ x ∈ (lexFrom (size (before ++ head ++ gap)) more).head?, x.isSeparator = false := by
      rw [hsize, hmore]
      exact isSeparator_of_head? hb hs
    have hrest := ih more.length hshort (fun hmem => hfeed (by simp [hmem])) (fun _ => hprotects)
      hmoreHead rfl
    rw [hsize, hmore] at hrest
    exact laid_of_separator hfeed hfree' hheadne hcolumn hlast hgap hs
      (joins_left hjoins) hgaps hrest
  · obtain ⟨blanks, x, more, rfl, hblanks, hx⟩ := exists_opensComment hpre hcomment
    rw [List.append_assoc] at hlex
    exact laid_of_comment hfeed hlex hblanks (fun y hy => hpre y (List.mem_append_left _ hy)) hx

/-- A row that starts with no separator has no empty cell at its head. -/
lemma emptyFirst_eq_nil {x : Token} {us : List Token} (hx : x.isSeparator = false) :
    emptyFirst base (segments (cutComment true (x :: us)).1) = [] := by
  rw [cutComment]
  split
  · rfl
  · obtain ⟨part, more, hcut⟩ := List.exists_cons_of_ne_nil (cut_ne_nil isSeparator
      (cutComment (x.isSeparator || true && x.kind == .blank) us).1)
    rw [segments, cut_cons_of_not hx hcut]
    rfl

/-- Every line is read by the grammar. -/
theorem laid_splitCells (base : Nat) (hfeed : '\n' ∉ t) :
    Laid base [] t (splitCells t base).1 (splitCells t base).2 := by
  cases hts : lex t with
  | nil =>
    obtain rfl := lexFrom_eq_nil_iff.1 hts
    rw [splitCells_eq, hts]
    have hlaid : Laid base [] [] [] none := .blank (by simp) rfl
    exact hlaid
  | cons sep post =>
    cases hs : sep.isSeparator with
    | true =>
      have hlex : lex t = [] ++ sep :: post := hts
      have htokens : lexFrom 0 t = [sep] ++ post := hts
      obtain ⟨gap, rest, rfl, hgap, hrest, hjoins⟩ := exists_append_of_lexFrom htokens
      rw [Nat.zero_add] at hrest
      have hhead : ∀ x ∈ (lexFrom (size gap) rest).head?, x.isSeparator = false := by
        rw [hrest]
        exact isSeparator_of_head? hts hs
      have hlaid : Laid base gap rest (cellsIn base (lexFrom (size gap) rest))
          (commentIn base (lexFrom (size gap) rest)) :=
        laid_of_lexFrom (fun hmem => hfeed (List.mem_append_right _ hmem))
          (fun _ => protects_of_separator hgap hs) hhead
      have hcolumn : IsColumn [] := ⟨fun x hx => absurd hx List.not_mem_nil, rfl⟩
      rw [hrest] at hlaid
      rw [splitCells_of_separator hlex hcolumn hs]
      exact .empty (isSeparator_of_lexFrom hgap hs hjoins rfl (by simp)) hlaid
    | false =>
      have hempty : emptyFirst base (segments (cutComment true (lex t)).1) = [] := by
        rw [hts]
        exact emptyFirst_eq_nil hs
      have hhead : ∀ x ∈ (lexFrom (size []) t).head?, x.isSeparator = false := by
        rw [size_nil, ← lex, hts]
        simpa using hs
      rw [splitCells_eq, hempty]
      exact laid_of_lexFrom hfeed (fun _ => rfl) hhead

end

end KeywordCompletion
