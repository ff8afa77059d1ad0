import Mathlib.Data.List.Chain
import KeywordCompletion.Proofs.Row.Tokens
import KeywordCompletion.Proofs.Text.Slices

/-!
# Longest matches

Each kind of token has a pattern, and a row is read by taking, again and again, the longest text at its head that a
pattern matches. Where none matched, some text would be taken for plain text. `Token.reads_iff` says that this never
happens and that the tokens of a row are its only reading; they tile the row, each of them as long as it can be:
`Token.tiles_lex`.
-/

namespace KeywordCompletion

open Text

variable {n : Nat} {c d : Char} {s t u v lexeme rest : Text} {kind other : TokenKind}

namespace TokenKind

/-- Whether the pattern of a kind of token matches a text as a whole. -/
inductive Matches : TokenKind → Text → Prop
  | blank {s : Text} (hne : s ≠ []) (h : ∀ c ∈ s, c = ' ' ∨ c = '\t') : Matches .blank s
  | escape {c : Char} (hc : c ≠ '\n') : Matches .escape ['\\', c]
  /-- A backslash with nothing to protect. -/
  | lone : Matches .escape ['\\']
  | text {s : Text} (hne : s ≠ []) (h : ∀ c ∈ s, c ≠ ' ' ∧ c ≠ '\t' ∧ c ≠ '\\') : Matches .text s

/-- Whether a text is a token of a kind as long as it can be, before what follows it. -/
inductive IsWhole : TokenKind → Text → Text → Prop
  | blank {s after : Text} (hne : s ≠ []) (h : ∀ c ∈ s, c = ' ' ∨ c = '\t')
    (hafter : ∀ c ∈ after.head?, c ≠ ' ' ∧ c ≠ '\t') : IsWhole .blank s after
  | escape {c : Char} {after : Text} (hc : c ≠ '\n') : IsWhole .escape ['\\', c] after
  | lone {after : Text} (hafter : ∀ c ∈ after.head?, c = '\n') : IsWhole .escape ['\\'] after
  | text {s after : Text} (hne : s ≠ []) (h : ∀ c ∈ s, c ≠ ' ' ∧ c ≠ '\t' ∧ c ≠ '\\')
    (hafter : ∀ c ∈ after.head?, c = ' ' ∨ c = '\t' ∨ c = '\\') : IsWhole .text s after

lemma isPlain_iff : Token.isPlain c = true ↔ c ≠ ' ' ∧ c ≠ '\t' ∧ c ≠ '\\' := by
  simp [Token.isPlain, isBlank, and_assoc]

lemma Matches.ne_nil (h : kind.Matches s) : s ≠ [] := by
  cases h with
  | blank hne => exact hne
  | escape => simp
  | lone => simp
  | text hne => exact hne

lemma Matches.kind_eq (h : kind.Matches (c :: s)) (h' : other.Matches (c :: t)) : other = kind := by
  cases h <;> cases h' <;> simp_all

/-- What is matched by the pattern of a token and is longer goes on with a character that the token takes up. -/
lemma Matches.takes (h : kind.Matches (s ++ c :: u)) (hs : s ≠ []) : kind.takes s c = true := by
  generalize ht : s ++ c :: u = t at h
  cases h with
  | blank _ h => exact isBlank_iff.2 (h c (by simp [← ht]))
  | text _ h => exact isPlain_iff.2 (h c (by simp [← ht]))
  | @escape d hd =>
    obtain ⟨b, s, rfl⟩ := List.exists_cons_of_ne_nil hs
    obtain ⟨rfl, htail⟩ := List.cons.inj ht
    cases s with
    | nil =>
      obtain ⟨rfl, -⟩ : c = d ∧ u = [] := by simpa using htail
      simp [TokenKind.takes, hd]
    | cons b s => simp at htail
  | lone =>
    have hlength := congrArg List.length ht
    have hpos := List.length_pos_iff.2 hs
    simp only [List.length_append, List.length_cons, List.length_nil] at hlength
    omega

lemma matches_of_munch (h : Token.munch t = some (kind, lexeme, rest)) : kind.Matches lexeme := by
  have hall {p : Char → Bool} {c : Char} {t : Text} (hc : p c = true) : ∀ d ∈ c :: t.takeWhile p, p d = true :=
    List.forall_mem_cons.2 ⟨hc, fun d hd => List.mem_takeWhile_imp hd⟩
  cases t with
  | nil => simp [Token.munch] at h
  | cons c t =>
    rcases Token.isBlank_or_isPlain_or_backslash c with hb | hp | rfl
    · rw [Token.munch_cons_of_isBlank hb] at h
      cases h
      exact .blank (List.cons_ne_nil c _) fun d hd => isBlank_iff.1 (hall hb d hd)
    · rw [Token.munch_cons_of_isPlain hp] at h
      cases h
      exact .text (List.cons_ne_nil c _) fun d hd => isPlain_iff.1 (hall hp d hd)
    · rcases t with _ | ⟨d, t⟩
      · cases h
        exact .lone
      · by_cases hd : d = '\n'
        · simp only [Token.munch, hd, if_true] at h
          cases h
          exact .lone
        · simp only [Token.munch, hd, if_true, if_false] at h
          cases h
          exact .escape hd

lemma Matches.isWhole (h : kind.Matches s) (hafter : ∀ c ∈ v.head?, kind.takes s c = false) : kind.IsWhole s v := by
  cases h with
  | blank hne h =>
    refine .blank hne h fun c hc => ?_
    have hc : isBlank c = false := hafter c hc
    simpa [isBlank] using hc
  | escape hc => exact .escape hc
  | lone =>
    refine .lone fun c hc => ?_
    simpa [TokenKind.takes] using hafter c hc
  | text hne h =>
    refine .text hne h fun c hc => ?_
    have hplain : Token.isPlain c = false := hafter c hc
    rw [← Bool.not_eq_true, isPlain_iff] at hplain
    tauto

end TokenKind

namespace Token

open TokenKind

/-- Whether a pattern matches the text before the rest, and no pattern matches another text as long or longer there. -/
structure IsLongestMatch (kind : TokenKind) (lexeme rest : Text) : Prop where
  isMatch : kind.Matches lexeme
  longest : ∀ other s v, lexeme ++ rest = s ++ v → TokenKind.Matches other s →
    (other = kind ∧ s = lexeme) ∨ s.length < lexeme.length

/-- The readings of a text that starts at byte `n`. A token is marked where no pattern matches anything, so that
some text is taken for plain text. -/
inductive Reads : Nat → Text → List (Token × Bool) → Prop
  | nil {n : Nat} : Reads n [] []
  | token {n : Nat} {kind : TokenKind} {lexeme rest : Text} {ts : List (Token × Bool)}
    (h : IsLongestMatch kind lexeme rest) (hrest : Reads (n + size lexeme) rest ts) :
    Reads n (lexeme ++ rest) ((⟨kind, lexeme, n⟩, false) :: ts)
  | unmatched {n : Nat} {lexeme rest : Text} {ts : List (Token × Bool)} (hne : lexeme ≠ [])
    (h : ∀ kind s v, lexeme ++ rest = s ++ v → ¬ TokenKind.Matches kind s)
    (hrest : Reads (n + size lexeme) rest ts) :
    Reads n (lexeme ++ rest) ((⟨.text, lexeme, n⟩, true) :: ts)

/-- What the tokens of a text are: they follow one another from its start to its end, each is what stands in the
text between its two ends, as long as it can be, and a token of blanks is a separator as the text tells. -/
structure Tiles (t : Text) (ts : List Token) : Prop where
  start : ∀ x ∈ ts.head?, x.start = 0
  contiguous : ts.IsChain fun x y => x.stop = y.start
  stop : (ts.getLast?.map Token.stop).getD 0 = size t
  start_lt_stop : ∀ x ∈ ts, x.start < x.stop
  boundary : ∀ x ∈ ts, isBoundary t x.start = true ∧ isBoundary t x.stop = true
  slice : ∀ x ∈ ts, slice? t x.start x.stop = some x.text
  whole : ∀ x ∈ ts, ∃ before after, t = before ++ (x.text ++ after) ∧ size before = x.start ∧
    x.kind.IsWhole x.text after
  apart : ts.IsChain fun x y => x.kind = y.kind → x.kind = .escape
  separator : ∀ x ∈ ts, x.kind = .blank → separatorAt t x.start =
    if 2 ≤ size x.text ∨ '\t' ∈ x.text then some (size x.text) else none

lemma isLongestMatch_of_munch (h : munch (lexeme ++ rest) = some (kind, lexeme, rest)) :
    IsLongestMatch kind lexeme rest := by
  have hmatch := matches_of_munch h
  refine ⟨hmatch, fun other s v hsplit hs => ?_⟩
  obtain ⟨c, l, rfl⟩ := List.exists_cons_of_ne_nil hmatch.ne_nil
  have hkind : other = kind := by
    obtain ⟨d, s, rfl⟩ := List.exists_cons_of_ne_nil hs.ne_nil
    obtain ⟨rfl, -⟩ := List.cons.inj hsplit
    exact hmatch.kind_eq hs
  subst hkind
  rcases List.append_eq_append_iff.1 hsplit with ⟨u, rfl, hrest⟩ | ⟨u, hu, -⟩
  · cases u with
    | nil => exact Or.inl ⟨rfl, List.append_nil _⟩
    | cons d u =>
      -- the token would take up the first character behind it
      have htakes := (munch_append_iff.1 h).2 d (by rw [hrest]; rfl)
      rw [hs.takes hmatch.ne_nil] at htakes
      cases htakes
  · cases u with
    | nil => exact Or.inl ⟨rfl, by rw [hu, List.append_nil]⟩
    | cons d u =>
      right
      rw [hu, List.length_append, List.length_cons]
      omega

lemma IsLongestMatch.munch_eq (h : IsLongestMatch kind lexeme rest) :
    munch (lexeme ++ rest) = some (kind, lexeme, rest) := by
  obtain ⟨c, t, ht⟩ := List.exists_cons_of_ne_nil (List.append_ne_nil_of_left_ne_nil h.isMatch.ne_nil rest)
  obtain ⟨other, s, v, hm, -, -⟩ := exists_munch c t
  rw [← ht] at hm
  have hsplit := munch_eq_append hm
  rw [hsplit] at hm
  have hother := isLongestMatch_of_munch hm
  have hsame : other = kind ∧ c :: s = lexeme := by
    rcases h.longest _ _ _ hsplit hother.isMatch with hsame | hlt
    · exact hsame
    · rcases hother.longest _ _ _ hsplit.symm h.isMatch with ⟨hkind, htext⟩ | hgt
      · exact ⟨hkind.symm, htext.symm⟩
      · omega
  obtain ⟨rfl, rfl⟩ := hsame
  rw [← List.append_cancel_left hsplit] at hm
  exact hm

/-- The tokens of a text are its only reading, and none of them is marked. -/
lemma reads_iff {ts : List (Token × Bool)} : Reads n t ts ↔ ts = (lexFrom n t).map fun x => (x, false) := by
  constructor
  · intro h
    induction h with
    | nil => simp
    | token h hrest ih => rw [lexFrom_of_munch h.munch_eq, List.map_cons, ih]
    | @unmatched n lexeme rest ts hne h hrest ih =>
      obtain ⟨c, t, ht⟩ := List.exists_cons_of_ne_nil (List.append_ne_nil_of_left_ne_nil hne rest)
      obtain ⟨kind, s, v, hm, -, -⟩ := exists_munch c t
      rw [← ht] at hm
      exact absurd (matches_of_munch hm) (h kind _ v (munch_eq_append hm))
  · rintro rfl
    generalize hts : lexFrom n t = ts
    induction ts generalizing n t with
    | nil =>
      rw [lexFrom_eq_nil_iff.1 hts]
      exact .nil
    | cons x ts ih =>
      obtain ⟨rest, rfl, hm, rfl, hrest⟩ := munch_of_lexFrom hts
      exact .token (isLongestMatch_of_munch hm) (ih hrest)

lemma exists_of_mem_lexFrom {x : Token} (h : x ∈ lexFrom n t) : ∃ before after, t = before ++ (x.text ++ after) ∧
    x.start = n + size before ∧ munch (x.text ++ after) = some (x.kind, x.text, after) := by
  obtain ⟨ts, us, hts⟩ := List.append_of_mem h
  obtain ⟨before, b, rfl, -, hb, -⟩ := exists_append_of_lexFrom hts
  obtain ⟨after, rfl, hm, hstart, -⟩ := munch_of_lexFrom hb
  exact ⟨before, after, rfl, hstart, hm⟩

lemma isChain_lexFrom (n : Nat) (t : Text) :
    (lexFrom n t).IsChain fun x y => x.stop = y.start ∧ (x.kind = y.kind → x.kind = .escape) := by
  generalize hts : lexFrom n t = ts
  induction ts generalizing n t with
  | nil => exact List.isChain_nil
  | cons x ts ih =>
    obtain ⟨rest, rfl, hm, rfl, hrest⟩ := munch_of_lexFrom hts
    rw [List.isChain_cons]
    refine ⟨fun y hy => ?_, ih _ _ hrest⟩
    obtain ⟨us, rfl⟩ := List.head?_eq_some_iff.1 hy
    obtain ⟨after, rfl, hmy, hstart, -⟩ := munch_of_lexFrom hrest
    refine ⟨hstart.symm, fun hkind => ?_⟩
    have hwhole := (matches_of_munch hm).isWhole (munch_append_iff.1 hm).2
    have hmatch := matches_of_munch hmy
    rw [← hkind] at hmatch
    obtain ⟨c, s, hs⟩ := List.exists_cons_of_ne_nil hmatch.ne_nil
    rw [hs] at hmatch hwhole
    generalize x.kind = kind at *
    generalize x.text = lexeme at *
    cases hwhole with
    | escape => rfl
    | lone => rfl
    | blank _ _ hafter =>
      cases hmatch with
      | blank _ h =>
        have hc := hafter c rfl
        rcases h c List.mem_cons_self with hblank | htab
        · exact absurd hblank hc.1
        · exact absurd htab hc.2
    | text _ _ hafter =>
      cases hmatch with
      | text _ h =>
        have hc := h c List.mem_cons_self
        have hnot := hafter c rfl
        tauto

lemma stop_lexFrom (n : Nat) (t : Text) : ((lexFrom n t).getLast?.map Token.stop).getD n = n + size t := by
  generalize hts : lexFrom n t = ts
  induction ts generalizing n t with
  | nil => rw [lexFrom_eq_nil_iff.1 hts]; rfl
  | cons x ts ih =>
    obtain ⟨rest, rfl, -, rfl, hrest⟩ := munch_of_lexFrom hts
    have hstop := ih _ _ hrest
    rw [List.getLast?_cons, size_append, ← Nat.add_assoc, ← hstop]
    cases ts.getLast? <;> rfl

lemma separatorAt_of_blank {before after : Text} (hrun : ∀ c ∈ s, c = ' ' ∨ c = '\t')
    (hafter : ∀ c ∈ after.head?, c ≠ ' ' ∧ c ≠ '\t') : separatorAt (before ++ (s ++ after)) (size before) =
      if 2 ≤ size s ∨ '\t' ∈ s then some (size s) else none := by
  have hblank : ∀ c ∈ s, isBlank c = true := fun c hc => isBlank_iff.2 (hrun c hc)
  have hstop : ∀ c ∈ after.head?, isBlank c = false := fun c hc => by simpa [isBlank] using hafter c hc
  have hwide : isSeparatorRun s = true ↔ 2 ≤ size s ∨ '\t' ∈ s := by
    rw [size_of_blanks hblank]
    simp [isSeparatorRun]
  rw [separatorAt, drop?_size_append]
  simp only [(takeWhile_append_eq_iff.2 ⟨hblank, hstop⟩).1, hwide, size_of_blanks hblank]

/-- The tokens of a text are its only reading by longest matches, with no text that no pattern matches, and they
tile it. -/
theorem tiles_lex (t : Text) :
    (∀ ts, Reads 0 t ts ↔ ts = (lex t).map fun x => (x, false)) ∧ Tiles t (lex t) := by
  have hwhole : ∀ x ∈ lex t, ∃ before after, t = before ++ (x.text ++ after) ∧ size before = x.start ∧
      x.kind.IsWhole x.text after := by
    intro x hx
    obtain ⟨before, after, ht, hstart, hm⟩ := exists_of_mem_lexFrom hx
    rw [Nat.zero_add] at hstart
    exact ⟨before, after, ht, hstart.symm, (matches_of_munch hm).isWhole (munch_append_iff.1 hm).2⟩
  refine ⟨fun ts => reads_iff, ?_⟩
  constructor
  case start =>
    intro x hx
    obtain ⟨us, hus⟩ := List.head?_eq_some_iff.1 hx
    obtain ⟨-, -, -, hstart, -⟩ := munch_of_lexFrom hus
    exact hstart
  case contiguous => exact (isChain_lexFrom 0 t).imp fun x y h => h.1
  case stop => exact (stop_lexFrom 0 t).trans (Nat.zero_add _)
  case start_lt_stop =>
    intro x hx
    obtain ⟨before, after, -, -, hm⟩ := exists_of_mem_lexFrom hx
    obtain ⟨c, s, hs⟩ := List.exists_cons_of_ne_nil (munch_ne_nil hm)
    have hpos := c.utf8Size_pos
    rw [Token.stop, hs, size_cons]
    omega
  case boundary =>
    intro x hx
    obtain ⟨before, after, ht, hstart, -⟩ := hwhole x hx
    rw [isBoundary_eq_true_iff, isBoundary_eq_true_iff]
    refine ⟨⟨before, x.text ++ after, ht, hstart⟩, before ++ x.text, after, ?_, ?_⟩
    · rw [ht, List.append_assoc]
    · rw [size_append, hstart]
      rfl
  case slice =>
    intro x hx
    obtain ⟨before, after, rfl, hstart, -⟩ := hwhole x hx
    rw [Token.stop, ← hstart]
    exact slice?_append before x.text after
  case whole => exact hwhole
  case apart => exact (isChain_lexFrom 0 t).imp fun x y h => h.2
  case separator =>
    intro x hx hkind
    obtain ⟨before, after, ht, hstart, hwhole⟩ := hwhole x hx
    rw [hkind] at hwhole
    rw [ht, ← hstart]
    generalize x.text = lexeme at *
    cases hwhole with
    | blank _ h hafter => exact separatorAt_of_blank h hafter

end Token

end KeywordCompletion
