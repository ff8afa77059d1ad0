import KeywordCompletion.Proofs.Cut
import KeywordCompletion.Proofs.Row.Tokens
import KeywordCompletion.Row.Cell

/-!
# Columns of a row

The tokens of a row before its first separator are its first column. The cells and the comment behind
that separator are those of the tokens behind it, wherever these tokens stand.
-/

namespace KeywordCompletion

namespace Token

variable {base n : Nat} {fresh : Bool} {ts us pre post : List Token} {sep : Token}

lemma kind_of_isSeparator (h : sep.isSeparator = true) : sep.kind = .blank := by
  simp only [isSeparator, Bool.and_eq_true, beq_iff_eq] at h
  exact h.1

lemma opensComment_of_kind_eq_blank {t : Token} (h : t.kind = .blank) : t.opensComment = false := by
  simp [opensComment, h]

lemma cutComment_append (fresh : Bool) (ts : List Token) :
    (cutComment fresh ts).1 ++ (cutComment fresh ts).2 = ts := by
  induction ts generalizing fresh with
  | nil => rfl
  | cons t ts ih =>
    rw [cutComment]
    split
    · rfl
    · simp [ih]

lemma cutComment_false (h : ∀ t ∈ ts, t.isSeparator = false) : cutComment false ts = (ts, []) := by
  induction ts with
  | nil => rfl
  | cons t ts ih =>
    rw [List.forall_mem_cons] at h
    rw [cutComment]
    simp [h.1, ih h.2]

lemma cutComment_append_cons (h : (cutComment fresh ts).2 = []) (hsep : sep.isSeparator = true) :
    cutComment fresh (ts ++ sep :: post) =
      (ts ++ sep :: (cutComment true post).1, (cutComment true post).2) := by
  induction ts generalizing fresh with
  | nil =>
    rw [List.nil_append, cutComment, opensComment_of_kind_eq_blank (kind_of_isSeparator hsep), hsep]
    simp
  | cons t ts ih =>
    rw [cutComment] at h
    split at h
    · cases h
    · rename_i ht
      rw [List.cons_append, cutComment, if_neg ht, ih h]
      rfl

/-- Tokens without separators and without a comment: a stretch that may stand before a separator. -/
structure IsColumn (ts : List Token) : Prop where
  separator : ∀ t ∈ ts, t.isSeparator = false
  comment : (cutComment true ts).2 = []

lemma IsColumn.cutComment_eq (h : IsColumn ts) : cutComment true ts = (ts, []) := by
  have happ := cutComment_append true ts
  rw [h.comment, List.append_nil] at happ
  rw [← h.comment]
  exact Prod.ext happ rfl

/-- A stretch that starts with a token that is no blank and opens no comment holds no comment. -/
lemma isColumn_of_head (h : ∀ t ∈ ts, t.isSeparator = false)
    (hhead : ∀ t ∈ ts.head?, t.kind ≠ .blank ∧ t.opensComment = false) : IsColumn ts := by
  refine ⟨h, ?_⟩
  cases ts with
  | nil => rfl
  | cons t ts =>
    rw [List.forall_mem_cons] at h
    have ht := hhead t rfl
    have hkind : (t.kind == .blank) = false := by
      rw [beq_eq_false_iff_ne]
      exact ht.1
    simp [cutComment, hkind, ht.2, h.1, cutComment_false h.2]

/-- Where a stretch without separators holds a comment, only blanks stand before it. -/
lemma exists_opensComment (h : ∀ t ∈ ts, t.isSeparator = false) (hne : (cutComment true ts).2 ≠ []) :
    ∃ blanks t more, ts = blanks ++ t :: more ∧ (∀ x ∈ blanks, x.kind = .blank) ∧
      t.opensComment = true := by
  induction ts with
  | nil => exact absurd rfl hne
  | cons t ts ih =>
    rw [List.forall_mem_cons] at h
    by_cases ht : t.opensComment = true
    · exact ⟨[], t, ts, rfl, by simp, ht⟩
    · by_cases hb : t.kind = .blank
      · rw [cutComment] at hne
        simp only [ht, hb, h.1, Bool.true_and, Bool.false_eq_true, if_false, beq_self_eq_true,
          Bool.or_true] at hne
        obtain ⟨blanks, x, more, rfl, hblanks, hx⟩ := ih h.2 hne
        refine ⟨t :: blanks, x, more, rfl, ?_, hx⟩
        rw [List.forall_mem_cons]
        exact ⟨hb, hblanks⟩
      · have hcolumn : IsColumn (t :: ts) := isColumn_of_head (by simpa using h) (by simp [hb, ht])
        exact absurd hcolumn.comment hne

lemma cutComment_blanks {blanks more : List Token} {t : Token} (h : ∀ x ∈ blanks, x.kind = .blank)
    (ht : t.opensComment = true) :
    cutComment true (blanks ++ t :: more) = (blanks, t :: more) := by
  induction blanks with
  | nil => simp [cutComment, ht]
  | cons x blanks ih =>
    rw [List.forall_mem_cons] at h
    rw [List.cons_append, cutComment, opensComment_of_kind_eq_blank h.1]
    simp [h.1, ih h.2]

/-- A row is one stretch without separators, or has a first separator. -/
lemma exists_firstSeparator (ts : List Token) :
    (∀ t ∈ ts, t.isSeparator = false) ∨ ∃ pre sep post, ts = pre ++ sep :: post ∧
      sep.isSeparator = true ∧ ∀ t ∈ pre, t.isSeparator = false := by
  induction ts with
  | nil => simp
  | cons t ts ih =>
    cases ht : t.isSeparator with
    | true => exact Or.inr ⟨[], t, ts, rfl, ht, by simp⟩
    | false =>
      rcases ih with h | ⟨pre, sep, post, rfl, hsep, hpre⟩
      · left
        rw [List.forall_mem_cons]
        exact ⟨ht, h⟩
      · refine Or.inr ⟨t :: pre, sep, post, rfl, hsep, ?_⟩
        rw [List.forall_mem_cons]
        exact ⟨ht, hpre⟩

lemma trimBlanks_eq_nil (h : ∀ t ∈ ts, t.kind = .blank) : trimBlanks ts = [] := by
  have hdrop : ts.dropWhile (fun t => t.kind == .blank) = [] := by
    rw [List.dropWhile_eq_nil_iff]
    simpa using h
  rw [trimBlanks, hdrop]
  rfl

lemma head?_dropWhile {p : Token → Bool} {x : Token} (h : x ∈ (ts.dropWhile p).head?) : p x = false := by
  have hnot := List.head?_dropWhile_not p ts
  rw [Option.mem_def.1 h] at hnot
  simpa using hnot

/-- A stretch is what its cell is made of, with blanks before and behind it. -/
lemma exists_append_trimBlanks (ts : List Token) :
    ∃ lead trail, ts = lead ++ (trimBlanks ts ++ trail) ∧ (∀ x ∈ lead, x.kind = .blank) ∧
      (∀ x ∈ trail, x.kind = .blank) ∧ (∀ x ∈ (trimBlanks ts).head?, x.kind ≠ .blank) ∧
      ∀ x ∈ (trimBlanks ts).getLast?, x.kind ≠ .blank := by
  let isBlank := fun t : Token => t.kind == .blank
  let core := ts.dropWhile isBlank
  let trail := (core.reverse.takeWhile isBlank).reverse
  have hcore : trimBlanks ts ++ trail = core := by
    have h := congrArg List.reverse (List.takeWhile_append_dropWhile (p := isBlank) (l := core.reverse))
    rwa [List.reverse_append, List.reverse_reverse] at h
  have hwhole : ts = ts.takeWhile isBlank ++ (trimBlanks ts ++ trail) := by
    rw [hcore, List.takeWhile_append_dropWhile]
  refine ⟨ts.takeWhile isBlank, trail, hwhole, ?_, ?_, ?_, ?_⟩
  · intro x hx
    simpa [isBlank] using List.mem_takeWhile_imp hx
  · intro x hx
    simpa [isBlank] using List.mem_takeWhile_imp (List.mem_reverse.1 hx)
  · intro x hx
    have hhead : x ∈ core.head? := by
      rw [← hcore, List.head?_append, Option.mem_def.1 hx]
      rfl
    simpa [isBlank] using head?_dropWhile hhead
  · intro x hx
    rw [trimBlanks, List.getLast?_reverse] at hx
    simpa using head?_dropWhile hx

lemma map_shift_zero (ts : List Token) : ts.map (shift 0) = ts := by
  have hid : shift 0 = id := by
    funext t
    simp [shift]
  rw [hid, List.map_id]

lemma map_shift_cutComment (n : Nat) (fresh : Bool) (ts : List Token) :
    cutComment fresh (ts.map (shift n)) =
      ((cutComment fresh ts).1.map (shift n), (cutComment fresh ts).2.map (shift n)) := by
  induction ts generalizing fresh with
  | nil => rfl
  | cons t ts ih =>
    have hopens : (shift n t).opensComment = t.opensComment := rfl
    have hsep : (shift n t).isSeparator = t.isSeparator := rfl
    rw [List.map_cons, cutComment, cutComment, hopens, hsep, shift_kind, ih]
    split <;> simp

lemma map_shift_segments (n : Nat) (ts : List Token) :
    segments (ts.map (shift n)) = (segments ts).map (List.map (shift n)) := cut_map (shift n) ts

lemma map_shift_trimBlanks (n : Nat) (ts : List Token) :
    trimBlanks (ts.map (shift n)) = (trimBlanks ts).map (shift n) := by
  simp only [trimBlanks, List.dropWhile_map, ← List.map_reverse, Function.comp_def, shift_kind]

lemma map_value_cell? (base' n : Nat) (ts : List Token) :
    (cell? base' (ts.map (shift n))).map Cell.value = (cell? base ts).map Cell.value := by
  rw [cell?, cell?, map_shift_trimBlanks]
  cases trimBlanks ts with
  | nil => rfl
  | cons t more => simp [List.flatMap_map]

/-- The cells of a row with these tokens, an empty one at its head left out. -/
def cellsIn (base : Nat) (ts : List Token) : List Cell :=
  (segments (cutComment true ts).1).filterMap (cell? base)

/-- The comment of a row with these tokens. -/
def commentIn (base : Nat) (ts : List Token) : Option Cell := comment? base (cutComment true ts).2

lemma map_value_cellsIn (base' n : Nat) (ts : List Token) :
    (cellsIn base' (ts.map (shift n))).map Cell.value = (cellsIn base ts).map Cell.value := by
  rw [cellsIn, cellsIn, map_shift_cutComment, map_shift_segments, List.filterMap_map, List.map_filterMap,
    List.map_filterMap]
  exact congrFun (congrArg List.filterMap (funext fun part => map_value_cell? base' n part)) _

lemma map_value_commentIn (base' n : Nat) (ts : List Token) :
    (commentIn base' (ts.map (shift n))).map Cell.value = (commentIn base ts).map Cell.value := by
  rw [commentIn, commentIn, map_shift_cutComment]
  cases (cutComment true ts).2 with
  | nil => rfl
  | cons t more => simp [comment?, List.flatMap_map]

lemma segments_of_isColumn (h : IsColumn ts) : segments ts = [ts] := cut_of_forall h.separator

lemma segments_append_cons (h : IsColumn pre) (hsep : sep.isSeparator = true) (post : List Token) :
    segments (pre ++ sep :: post) = pre :: segments post := by
  rw [segments, cut_append_cons hsep, cut_of_forall h.separator]
  rfl

@[simp] lemma cellsIn_nil (base : Nat) : cellsIn base [] = [] := rfl

@[simp] lemma commentIn_nil (base : Nat) : commentIn base [] = none := rfl

lemma cellsIn_of_isColumn (h : IsColumn ts) : cellsIn base ts = (cell? base ts).toList := by
  rw [cellsIn, h.cutComment_eq, segments_of_isColumn h]
  cases hc : cell? base ts <;> simp [hc]

lemma commentIn_of_isColumn (h : IsColumn ts) : commentIn base ts = none := by
  rw [commentIn, h.comment]
  rfl

lemma cellsIn_append_cons (h : IsColumn pre) (hsep : sep.isSeparator = true) :
    cellsIn base (pre ++ sep :: post) = (cell? base pre).toList ++ cellsIn base post := by
  rw [cellsIn, cutComment_append_cons h.comment hsep, segments_append_cons h hsep]
  cases hc : cell? base pre <;> simp [hc, cellsIn]

lemma commentIn_append_cons (h : IsColumn pre) (hsep : sep.isSeparator = true) :
    commentIn base (pre ++ sep :: post) = commentIn base post := by
  rw [commentIn, cutComment_append_cons h.comment hsep, commentIn]

lemma cellsIn_of_opensComment {blanks more : List Token} {t : Token}
    (hsep : ∀ x ∈ blanks, x.isSeparator = false) (h : ∀ x ∈ blanks, x.kind = .blank)
    (ht : t.opensComment = true) : cellsIn base (blanks ++ t :: more) = [] := by
  rw [cellsIn, cutComment_blanks h ht, segments, cut_of_forall hsep]
  simp [cell?, trimBlanks_eq_nil h]

/-- The first cell of a row with these tokens before its first separator. -/
def firstCell (base : Nat) (pre : List Token) : Option Cell :=
  if pre = [] then some ⟨[], base, base⟩ else cell? base pre

/-- Where a cell stands in a stretch of a row that starts at byte `n`: between blanks. -/
structure Holds (base n : Nat) (a lead : Text) (c : Cell) (trail : Text) : Prop where
  text : a = lead ++ (c.value ++ trail)
  start : c.start = base + (n + Text.size lead)
  stop : c.stop = c.start + Text.size c.value
  tokens : lexFrom n a = lexFrom n lead ++ (lexFrom (n + Text.size lead) c.value ++
    lexFrom (n + Text.size lead + Text.size c.value) trail)
  lead_blank : ∀ x ∈ lexFrom n lead, x.kind = .blank
  trail_blank : ∀ x ∈ lexFrom (n + Text.size lead + Text.size c.value) trail, x.kind = .blank
  opens : ∀ x ∈ (lexFrom (n + Text.size lead) c.value).head?, x.kind ≠ .blank
  closes : ∀ x ∈ (lexFrom (n + Text.size lead) c.value).getLast?, x.kind ≠ .blank
  ne_nil : c.value ≠ []

lemma exists_holds {a : Text} {c : Cell} (h : cell? base (lexFrom n a) = some c) :
    ∃ lead trail, Holds base n a lead c trail := by
  obtain ⟨lead, trail, hts, hlead, htrail, hopens, hcloses⟩ := exists_append_trimBlanks (lexFrom n a)
  obtain ⟨l, b, rfl, hl, hb, -⟩ := exists_append_of_lexFrom hts
  obtain ⟨v, r, rfl, hv, hr, -⟩ := exists_append_of_lexFrom hb
  rw [cell?] at h
  cases hcore : trimBlanks (lexFrom n (l ++ (v ++ r))) with
  | nil => simp [hcore] at h
  | cons t more =>
    rw [hcore] at h hts hv hopens hcloses
    obtain ⟨rest, -, -, hstart, -⟩ := munch_of_lexFrom hv
    have hvalue : (t :: more).flatMap Token.text = v := by rw [← hv, flatMap_text_lexFrom]
    simp only [hvalue, hstart, Option.some.injEq] at h
    subst h
    refine ⟨l, r, rfl, rfl, rfl, ?_, ?_, ?_, ?_, ?_, ?_⟩
    · rw [hts, hl, hv, hr]
    · rwa [hl]
    · rwa [hr]
    · rwa [hv]
    · rwa [hv]
    · rintro rfl
      simp at hv

lemma Holds.lead_eq_nil {a lead trail : Text} {c : Cell} (h : Holds base n a lead c trail)
    (hhead : ∀ x ∈ (lexFrom n a).head?, x.kind ≠ .blank) : lead = [] := by
  by_contra hne
  obtain ⟨x, xs, hx⟩ := exists_lexFrom_eq_cons n hne
  have hkind := h.lead_blank x (by rw [hx]; exact List.mem_cons_self)
  exact hhead x (by rw [h.tokens, hx]; rfl) hkind

lemma Holds.trail_eq_nil {a lead trail : Text} {c : Cell} (h : Holds base n a lead c trail)
    (hlast : ∀ x ∈ (lexFrom n a).getLast?, x.kind ≠ .blank) : trail = [] := by
  by_contra hne
  have hts := mt (lexFrom_eq_nil_iff (n := n + Text.size lead + Text.size c.value)).1 hne
  have hkind := h.trail_blank _ (List.getLast_mem hts)
  refine hlast _ ?_ hkind
  rw [h.tokens, List.getLast?_append, List.getLast?_append, List.getLast?_eq_some_getLast hts]
  rfl

lemma exists_cell?_of_mem {x : Token} (hx : x ∈ ts) (hkind : x.kind ≠ .blank) :
    ∃ c, cell? base ts = some c := by
  cases hcore : trimBlanks ts with
  | cons t more => exact ⟨_, by rw [cell?, hcore]⟩
  | nil =>
    obtain ⟨lead, trail, hts, hlead, htrail, -, -⟩ := exists_append_trimBlanks ts
    rw [hcore, List.nil_append] at hts
    rw [hts, List.mem_append] at hx
    exact absurd (hx.elim (hlead x) (htrail x)) hkind

lemma exists_cell?_start {a : Text} (hne : a ≠ []) (hhead : ∀ x ∈ (lexFrom n a).head?, x.kind ≠ .blank) :
    ∃ c, cell? base (lexFrom n a) = some c ∧ c.start = base + n := by
  obtain ⟨x, xs, hx⟩ := exists_lexFrom_eq_cons n hne
  have hmem : x ∈ lexFrom n a := by
    rw [hx]
    exact List.mem_cons_self
  have hcell : ∃ c, cell? base (lexFrom n a) = some c :=
    exists_cell?_of_mem hmem (hhead x (by rw [hx]; rfl))
  obtain ⟨c, hc⟩ := hcell
  obtain ⟨lead, trail, h⟩ := exists_holds hc
  refine ⟨c, hc, ?_⟩
  rw [h.start, h.lead_eq_nil hhead]
  rfl

lemma trimBlanks_eq_self (hhead : ∀ x ∈ ts.head?, x.kind ≠ .blank)
    (hlast : ∀ x ∈ ts.getLast?, x.kind ≠ .blank) : trimBlanks ts = ts := by
  have hdrop : ∀ us : List Token, (∀ x ∈ us.head?, x.kind ≠ .blank) →
      us.dropWhile (fun t => t.kind == .blank) = us := by
    intro us hus
    cases us with
    | nil => rfl
    | cons x us =>
      refine List.dropWhile_cons_of_neg ?_
      simpa using hus x rfl
  rw [trimBlanks, hdrop ts hhead, hdrop ts.reverse (by simpa using hlast), List.reverse_reverse]

/-- A stretch that starts and ends with no blank is a cell as a whole. -/
lemma cell?_lexFrom {k : Text} (hne : k ≠ []) (hhead : ∀ x ∈ (lexFrom n k).head?, x.kind ≠ .blank)
    (hlast : ∀ x ∈ (lexFrom n k).getLast?, x.kind ≠ .blank) :
    cell? base (lexFrom n k) = some ⟨k, base + n, base + n + Text.size k⟩ := by
  obtain ⟨x, xs, hx⟩ := exists_lexFrom_eq_cons n hne
  obtain ⟨rest, -, -, hstart, -⟩ := munch_of_lexFrom hx
  have hvalue : (x :: xs).flatMap Token.text = k := by rw [← hx, flatMap_text_lexFrom]
  rw [cell?, trimBlanks_eq_self hhead hlast, hx]
  simp only [hvalue, hstart]

end Token

section

variable {base : Nat} {t : Text} {pre post : List Token} {sep : Token}

open Token

lemma splitCells_eq (t : Text) (base : Nat) :
    splitCells t base = (emptyFirst base (segments (cutComment true (lex t)).1) ++ cellsIn base (lex t),
      commentIn base (lex t)) := rfl

/-- What stands in a row does not depend on where the row starts. -/
lemma map_value_splitCells (base' : Nat) (t : Text) :
    (splitCells t base').1.map Cell.value = (splitCells t base).1.map Cell.value ∧
      (splitCells t base').2.map Cell.value = (splitCells t base).2.map Cell.value := by
  have hempty : ∀ parts, (emptyFirst base' parts).map Cell.value = (emptyFirst base parts).map Cell.value := by
    intro parts
    rw [emptyFirst.eq_def, emptyFirst.eq_def]
    split <;> rfl
  have hcells := @map_value_cellsIn base base' 0 (lex t)
  have hcomment := @map_value_commentIn base base' 0 (lex t)
  rw [map_shift_zero] at hcells hcomment
  rw [splitCells_eq, splitCells_eq]
  simp only [List.map_append, hempty, hcells, hcomment, and_self]

lemma splitCells_of_isColumn (h : IsColumn (lex t)) :
    splitCells t base = ((cell? base (lex t)).toList, none) := by
  rw [splitCells_eq, cellsIn_of_isColumn h, commentIn_of_isColumn h, h.cutComment_eq,
    segments_of_isColumn h]
  cases lex t <;> rfl

/-- A row with a comment before its first separator has no cells. -/
lemma splitCells_of_comment (hlex : lex t = pre ++ post) (hsep : ∀ x ∈ pre, x.isSeparator = false)
    (hne : (cutComment true pre).2 ≠ []) : (splitCells t base).1 = [] := by
  obtain ⟨blanks, x, more, rfl, hblanks, hx⟩ := exists_opensComment hsep hne
  have hnone : ∀ y ∈ blanks, y.isSeparator = false := fun y hy => hsep y (List.mem_append_left _ hy)
  rw [List.append_assoc, List.cons_append] at hlex
  rw [splitCells_eq, hlex, cellsIn_of_opensComment hnone hblanks hx, cutComment_blanks hblanks hx,
    segments, cut_of_forall hnone]
  cases blanks <;> rfl

lemma splitCells_of_separator (hlex : lex t = pre ++ sep :: post) (hpre : IsColumn pre)
    (hsep : sep.isSeparator = true) :
    splitCells t base = ((firstCell base pre).toList ++ cellsIn base post, commentIn base post) := by
  rw [splitCells_eq, hlex, cutComment_append_cons hpre.comment hsep, segments_append_cons hpre hsep,
    cellsIn_append_cons hpre hsep, commentIn_append_cons hpre hsep, firstCell]
  obtain ⟨part, parts, hparts⟩ := List.exists_cons_of_ne_nil
    (cut_ne_nil isSeparator (cutComment true post).1)
  rw [segments, hparts]
  cases pre with
  | nil => rfl
  | cons x pre => rfl

end

end KeywordCompletion
