import KeywordCompletion.Proofs.Text.Slices
import KeywordCompletion.Row.Separator

/-!
# Tokens of texts that are put together

Where a row is cut between two of its tokens, its two parts have the tokens on the two sides of the cut.
Where two texts are put together, both keep their tokens unless the last token of the first one takes up
what follows it.
-/

namespace KeywordCompletion

lemma Text.isBlank_iff {c : Char} : isBlank c = true ↔ c = ' ' ∨ c = '\t' := by
  simp [isBlank]

/-- Whether a token of this kind and text would be longer if the character followed it. -/
def TokenKind.takes (kind : TokenKind) (lexeme : Text) (c : Char) : Bool :=
  match kind with
  | .blank => Text.isBlank c
  | .escape => lexeme.length == 1 && c != '\n'
  | .text => Token.isPlain c

namespace Token

/-- The token at another byte. -/
def shift (n : Nat) (t : Token) : Token := { t with start := n + t.start }

@[simp] lemma shift_kind (n : Nat) (t : Token) : (t.shift n).kind = t.kind := rfl

@[simp] lemma shift_text (n : Nat) (t : Token) : (t.shift n).text = t.text := rfl

lemma munch_cons_of_isBlank {c : Char} (h : Text.isBlank c = true) (t : Text) :
    munch (c :: t) = some (.blank, c :: t.takeWhile Text.isBlank, t.dropWhile Text.isBlank) := by
  have hc : c ≠ '\\' := by
    rintro rfl
    exact absurd h (by decide)
  simp [munch, hc, h]

lemma munch_cons_of_isPlain {c : Char} (h : isPlain c = true) (t : Text) :
    munch (c :: t) = some (.text, c :: t.takeWhile isPlain, t.dropWhile isPlain) := by
  simp only [isPlain, Bool.and_eq_true, Bool.not_eq_true', bne_iff_ne] at h
  simp [munch, h.1, h.2]

lemma isBlank_or_isPlain_or_backslash (c : Char) :
    Text.isBlank c = true ∨ isPlain c = true ∨ c = '\\' := by
  by_cases hb : Text.isBlank c = true
  · exact Or.inl hb
  · right
    rw [Bool.not_eq_true] at hb
    by_cases hc : c = '\\'
    · exact Or.inr hc
    · left
      simp [isPlain, hb, hc]

/-- Whether a text starts with a token depends on one character behind the token alone. -/
lemma munch_append_iff {kind : TokenKind} {lexeme rest : Text} :
    munch (lexeme ++ rest) = some (kind, lexeme, rest) ↔
      munch lexeme = some (kind, lexeme, []) ∧ ∀ c ∈ rest.head?, kind.takes lexeme c = false := by
  rcases lexeme with _ | ⟨c, l⟩
  · constructor
    · intro h
      exact absurd rfl (munch_ne_nil h)
    · rintro ⟨h, -⟩
      exact absurd rfl (munch_ne_nil h)
  rcases isBlank_or_isPlain_or_backslash c with hb | hp | rfl
  · rw [List.cons_append, munch_cons_of_isBlank hb, munch_cons_of_isBlank hb]
    simp only [Option.some.injEq, Prod.mk.injEq, List.cons.injEq, true_and, Text.takeWhile_append_eq_iff,
      Text.takeWhile_eq_self_iff, and_assoc]
    apply and_congr_right
    rintro rfl
    rfl
  · rw [List.cons_append, munch_cons_of_isPlain hp, munch_cons_of_isPlain hp]
    simp only [Option.some.injEq, Prod.mk.injEq, List.cons.injEq, true_and, Text.takeWhile_append_eq_iff,
      Text.takeWhile_eq_self_iff, and_assoc]
    apply and_congr_right
    rintro rfl
    rfl
  · rcases l with _ | ⟨d, l⟩
    · cases rest with
      | nil => simp [munch]
      | cons d rest =>
        by_cases hd : d = '\n' <;> cases kind <;> simp [munch, hd, TokenKind.takes]
    · by_cases hd : d = '\n'
      · simp [munch, hd]
      · cases kind <;> simp +contextual [munch, hd, TokenKind.takes]

/-- The first character of a text tells the kind of its first token. -/
lemma exists_munch (c : Char) (t : Text) :
    ∃ kind lexeme rest, munch (c :: t) = some (kind, c :: lexeme, rest) ∧
      (kind = .blank ↔ Text.isBlank c = true) ∧ (kind = .escape → c = '\\') := by
  rcases isBlank_or_isPlain_or_backslash c with hb | hp | rfl
  · exact ⟨_, _, _, munch_cons_of_isBlank hb t, by simp [hb], by simp⟩
  · have hb : Text.isBlank c = false := by
      simp only [isPlain, Bool.and_eq_true, Bool.not_eq_true'] at hp
      exact hp.1
    exact ⟨_, _, _, munch_cons_of_isPlain hp t, by simp [hb], by simp⟩
  · have hb : Text.isBlank '\\' = false := by decide
    rcases t with _ | ⟨d, t⟩
    · exact ⟨.escape, [], [], rfl, by simp [hb], by simp⟩
    · by_cases hd : d = '\n'
      · exact ⟨.escape, [], d :: t, by simp [munch, hd], by simp [hb], by simp⟩
      · exact ⟨.escape, [d], t, by simp [munch, hd], by simp [hb], by simp⟩

@[simp] lemma lexFrom_nil (n : Nat) : lexFrom n [] = [] := by
  rw [lexFrom]
  rfl

lemma lexFrom_of_munch {t lexeme rest : Text} {kind : TokenKind}
    (h : munch t = some (kind, lexeme, rest)) (n : Nat) :
    lexFrom n t = ⟨kind, lexeme, n⟩ :: lexFrom (n + Text.size lexeme) rest := by
  rw [lexFrom]
  split
  · rename_i hn
    rw [h] at hn
    cases hn
  · rename_i hs
    rw [h] at hs
    cases hs
    rfl

@[simp] lemma lexFrom_eq_nil_iff {n : Nat} {t : Text} : lexFrom n t = [] ↔ t = [] := by
  constructor
  · intro h
    cases t with
    | nil => rfl
    | cons c t =>
      obtain ⟨kind, lexeme, rest, hm, -, -⟩ := exists_munch c t
      rw [lexFrom_of_munch hm] at h
      cases h
  · rintro rfl
    exact lexFrom_nil n

lemma munch_of_lexFrom {n : Nat} {t : Text} {x : Token} {us : List Token} (h : lexFrom n t = x :: us) :
    ∃ rest, t = x.text ++ rest ∧ munch t = some (x.kind, x.text, rest) ∧ x.start = n ∧
      lexFrom (n + Text.size x.text) rest = us := by
  cases t with
  | nil => simp at h
  | cons c t =>
    obtain ⟨kind, lexeme, rest, hm, -, -⟩ := exists_munch c t
    rw [lexFrom_of_munch hm] at h
    cases h
    exact ⟨rest, munch_eq_append hm, hm, rfl, rfl⟩

lemma exists_lexFrom_eq_cons (n : Nat) {t : Text} (h : t ≠ []) : ∃ x us, lexFrom n t = x :: us :=
  List.exists_cons_of_ne_nil (mt lexFrom_eq_nil_iff.1 h)

lemma flatMap_text_lexFrom (n : Nat) (t : Text) : (lexFrom n t).flatMap Token.text = t := by
  generalize hts : lexFrom n t = ts
  induction ts generalizing n t with
  | nil => exact (lexFrom_eq_nil_iff.1 hts).symm
  | cons x us ih =>
    obtain ⟨rest, ht, -, -, hrest⟩ := munch_of_lexFrom hts
    rw [List.flatMap_cons, ih _ _ hrest, ← ht]

lemma lexFrom_add (m n : Nat) (t : Text) : lexFrom (m + n) t = (lexFrom n t).map (shift m) := by
  generalize hts : lexFrom n t = ts
  induction ts generalizing n t with
  | nil =>
    rw [lexFrom_eq_nil_iff.1 hts]
    simp
  | cons x us ih =>
    obtain ⟨rest, -, hm, hx, hrest⟩ := munch_of_lexFrom hts
    rw [lexFrom_of_munch hm, Nat.add_assoc, ih _ _ hrest, List.map_cons, ← hx]
    rfl

lemma lexFrom_eq_map_shift (n : Nat) (t : Text) : lexFrom n t = (lex t).map (shift n) :=
  lexFrom_add n 0 t

lemma exists_of_head?_lexFrom {n : Nat} {t : Text} {x : Token} (h : x ∈ (lexFrom n t).head?) :
    ∃ y ∈ (lex t).head?, y.shift n = x := by
  rw [lexFrom_eq_map_shift, List.head?_map] at h
  exact Option.map_eq_some_iff.1 h

lemma exists_of_getLast?_lexFrom {n : Nat} {t : Text} {x : Token} (h : x ∈ (lexFrom n t).getLast?) :
    ∃ y ∈ (lex t).getLast?, y.shift n = x := by
  rw [lexFrom_eq_map_shift, List.getLast?_map] at h
  exact Option.map_eq_some_iff.1 h

/-- Whether two texts can be put together so that both keep their tokens: the last token of the first one
takes up no character of the second one. -/
def Joins (a b : Text) : Prop := ∀ x ∈ (lex a).getLast?, ∀ c ∈ b.head?, x.kind.takes x.text c = false

lemma joins_iff (n : Nat) {a b : Text} :
    Joins a b ↔ ∀ x ∈ (lexFrom n a).getLast?, ∀ c ∈ b.head?, x.kind.takes x.text c = false := by
  constructor
  · intro h x hx
    obtain ⟨y, hy, rfl⟩ := exists_of_getLast?_lexFrom hx
    exact h y hy
  · intro h x hx
    apply h (x.shift n)
    rw [lexFrom_eq_map_shift, List.getLast?_map, Option.mem_def.1 hx]
    rfl

lemma joins_append {a b : Text} (hne : b ≠ []) (more : Text) (h : Joins a b) : Joins a (b ++ more) := by
  obtain ⟨c, b, rfl⟩ := List.exists_cons_of_ne_nil hne
  exact h

lemma joins_left {a b more : Text} (h : Joins a (b ++ more)) : Joins a b := by
  intro x hx c hc
  apply h x hx c
  rw [List.head?_append, Option.mem_def.1 hc]
  rfl

theorem lexFrom_append {n : Nat} {a b : Text} (h : Joins a b) :
    lexFrom n (a ++ b) = lexFrom n a ++ lexFrom (n + Text.size a) b := by
  rw [joins_iff n] at h
  generalize hts : lexFrom n a = ts at h
  induction ts generalizing n a with
  | nil =>
    rw [lexFrom_eq_nil_iff.1 hts]
    simp
  | cons x us ih =>
    obtain ⟨rest, ha, hm, hx, hrest⟩ := munch_of_lexFrom hts
    rw [ha, munch_append_iff] at hm
    have hhead : ∀ c ∈ (rest ++ b).head?, x.kind.takes x.text c = false := by
      cases rest with
      | nil =>
        rw [lexFrom_nil] at hrest
        subst hrest
        exact h x (by simp)
      | cons c rest => simpa using hm.2
    have hlast : ∀ y ∈ us.getLast?, ∀ c ∈ b.head?, y.kind.takes y.text c = false := by
      intro y hy
      apply h y
      rw [List.getLast?_cons, Option.mem_def.1 hy]
      rfl
    rw [ha, List.append_assoc, lexFrom_of_munch (munch_append_iff.2 ⟨hm.1, hhead⟩), ih hrest hlast,
      List.cons_append, Text.size_append, Nat.add_assoc, ← hx]

/-- A cut between two tokens divides the text into parts with the tokens on the two sides of it. -/
theorem exists_append_of_lexFrom {n : Nat} {t : Text} {ts us : List Token}
    (h : lexFrom n t = ts ++ us) :
    ∃ a b, t = a ++ b ∧ lexFrom n a = ts ∧ lexFrom (n + Text.size a) b = us ∧ Joins a b := by
  induction ts generalizing n t with
  | nil => exact ⟨[], t, rfl, lexFrom_nil n, h, by simp [Joins, lex]⟩
  | cons x ts ih =>
    obtain ⟨rest, ht, hm, hx, hrest⟩ := munch_of_lexFrom h
    obtain ⟨a, b, rfl, ha, hb, hlast⟩ := ih hrest
    rw [ht, munch_append_iff] at hm
    have hhead : ∀ c ∈ a.head?, x.kind.takes x.text c = false := by
      intro c hc
      refine hm.2 c ?_
      rw [List.head?_append, Option.mem_def.1 hc]
      rfl
    have hlex : lexFrom n (x.text ++ a) = x :: ts := by
      rw [lexFrom_of_munch (munch_append_iff.2 ⟨hm.1, hhead⟩), ha, ← hx]
    refine ⟨x.text ++ a, b, by rw [ht, List.append_assoc], hlex, ?_, ?_⟩
    · rw [Text.size_append, ← Nat.add_assoc, hb]
    · rw [joins_iff n, hlex]
      rw [joins_iff (n + Text.size x.text), ha] at hlast
      intro y hy
      rcases List.eq_nil_or_concat ts with rfl | ⟨before, z, rfl⟩
      · rw [lexFrom_eq_nil_iff.1 ha] at hm
        obtain rfl : x = y := by simpa using hy
        simpa using hm.2
      · apply hlast y
        simpa [List.getLast?_cons] using hy

lemma kind_eq_blank_iff {n : Nat} {c : Char} {t : Text} {x : Token} {us : List Token}
    (h : lexFrom n (c :: t) = x :: us) : x.kind = .blank ↔ Text.isBlank c = true := by
  obtain ⟨kind, lexeme, rest, hm, hkind, -⟩ := exists_munch c t
  rw [lexFrom_of_munch hm] at h
  rw [← (List.cons.inj h).1]
  exact hkind

lemma kind_ne_blank_of_getLast? {n : Nat} {t : Text} {ts us : List Token} {y : Token}
    (h : lexFrom n t = ts ++ y :: us) (hy : y.kind = .blank) : ∀ x ∈ ts.getLast?, x.kind ≠ .blank := by
  intro x hx hkind
  obtain ⟨a, b, -, ha, hb, hjoins⟩ := exists_append_of_lexFrom h
  rw [joins_iff n, ha] at hjoins
  cases b with
  | nil => simp at hb
  | cons c b =>
    have hc := hjoins x hx c rfl
    rw [hkind] at hc
    have hblank := (kind_eq_blank_iff hb).1 hy
    rw [show Text.isBlank c = false from hc] at hblank
    cases hblank

lemma exists_eq_cons_of_mem {n : Nat} {t : Text} {x : Token} (h : x ∈ lexFrom n t) :
    ∃ c lexeme, x.text = c :: lexeme ∧ (x.kind = .escape → c = '\\') := by
  obtain ⟨ts, us, hts⟩ := List.append_of_mem h
  obtain ⟨a, b, -, -, hb, -⟩ := exists_append_of_lexFrom hts
  cases b with
  | nil => simp at hb
  | cons c b =>
    obtain ⟨kind, lexeme, rest, hm, -, hescape⟩ := exists_munch c b
    rw [lexFrom_of_munch hm] at hb
    rw [← (List.cons.inj hb).1]
    exact ⟨c, lexeme, rfl, hescape⟩

/-- A blank goes on only with blanks, or when a backslash that stands alone protects it. -/
lemma takes_eq_false {n : Nat} {t : Text} {x : Token} (h : x ∈ lexFrom n t) (hkind : x.kind ≠ .blank)
    (hlone : x.text ≠ ['\\']) {c : Char} (hc : Text.isBlank c = true) :
    x.kind.takes x.text c = false := by
  cases hk : x.kind with
  | blank => exact absurd hk hkind
  | text => simp [TokenKind.takes, isPlain, hc]
  | escape =>
    obtain ⟨d, lexeme, htext, hescape⟩ := exists_eq_cons_of_mem h
    rw [htext, hescape hk] at hlone ⊢
    have hlexeme : lexeme ≠ [] := by
      rintro rfl
      exact hlone rfl
    simp [TokenKind.takes, hlexeme]

lemma text_of_kind_eq_blank {n : Nat} {t : Text} {x : Token} {us : List Token}
    (h : lexFrom n t = x :: us) (hx : x.kind = .blank) : x.text = t.takeWhile Text.isBlank := by
  obtain ⟨rest, ht, hm, -, -⟩ := munch_of_lexFrom h
  cases t with
  | nil => simp at h
  | cons c t =>
    rw [munch_cons_of_isBlank ((kind_eq_blank_iff h).1 hx)] at hm
    simp only [Option.some.injEq, Prod.mk.injEq] at hm
    rw [← hm.2.1, List.takeWhile_cons_of_pos ((kind_eq_blank_iff h).1 hx)]

lemma isBlank_of_mem_text {n : Nat} {t : Text} {x : Token} {us : List Token}
    (h : lexFrom n t = x :: us) (hx : x.kind = .blank) : ∀ c ∈ x.text, Text.isBlank c = true := by
  rw [text_of_kind_eq_blank h hx]
  intro c hc
  exact List.mem_takeWhile_imp hc

end Token

end KeywordCompletion
