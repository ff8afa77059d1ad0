import KeywordCompletion.Proofs.Row.Tokens

/-!
# Blanks and backslashes

A backslash protects the character behind it, unless it is protected itself. A separator is a run of blanks
that no backslash protects, as long as it can be. The tokens of a row are read by that rule: a token of
blanks holds unprotected blanks only, and a blank in any other token is protected.
-/

namespace KeywordCompletion

namespace Text

/-- Whether a text ends in a backslash that protects what follows: its backslashes find their partners from
left to right, and the last one is left over. With `lone` one is left over from before. -/
def protectsFrom (lone : Bool) (t : Text) : Bool := t.foldl (fun lone c => !lone && c == '\\') lone

/-- Whether the character that follows a text is protected. -/
def protects (before : Text) : Bool := protectsFrom false before

/-- Whether a character behind a text is a blank that is not protected. -/
def IsFreeBlank (before : Text) (c : Char) : Prop := isBlank c = true ∧ protects before = false

/-- A separator between two parts of a text: unprotected blanks, as many as there are, with two of them or a
tab. -/
structure IsSeparator (before run after : Text) : Prop where
  free : ∀ u c v, run = u ++ c :: v → IsFreeBlank (before ++ u) c
  left : ∀ u c, before = u ++ [c] → ¬ IsFreeBlank u c
  right : ∀ c v, after = c :: v → ¬ IsFreeBlank (before ++ run) c
  wide : isSeparatorRun run = true

variable {a b t run : Text} {lone : Bool} {c : Char}

lemma protectsFrom_append (lone : Bool) (a b : Text) :
    protectsFrom lone (a ++ b) = protectsFrom (protectsFrom lone a) b := List.foldl_append

lemma protects_append (h : protects a = false) (b : Text) : protects (a ++ b) = protects b := by
  rw [protects, protectsFrom_append, ← protects, h, protects]

lemma protects_of_forall (h : ∀ c ∈ t, c ≠ '\\') : protects t = false := by
  rw [protects]
  induction t with
  | nil => rfl
  | cons c t ih =>
    rw [List.forall_mem_cons] at h
    rw [protectsFrom, List.foldl_cons]
    have hc : (!false && c == '\\') = false := by simpa using h.1
    rw [hc]
    exact ih h.2

lemma ne_backslash_of_isBlank (h : isBlank c = true) : c ≠ '\\' := by
  rintro rfl
  exact absurd h (by decide)

lemma protects_of_blanks (h : ∀ c ∈ run, isBlank c = true) : protects run = false :=
  protects_of_forall fun c hc => ne_backslash_of_isBlank (h c hc)

lemma protects_append_of_blanks (h : protects a = false) (hrun : ∀ c ∈ run, isBlank c = true) :
    protects (a ++ run) = false := by
  rw [protects_append h, protects_of_blanks hrun]

/-- Behind an unprotected place blanks are unprotected all along. -/
lemma isFreeBlank_of_blanks (h : protects a = false) (hrun : ∀ c ∈ run, isBlank c = true) {u v : Text}
    (hu : run = u ++ c :: v) : IsFreeBlank (a ++ u) c := by
  subst hu
  exact ⟨hrun c (by simp), protects_append_of_blanks h fun d hd => hrun d (by simp [hd])⟩

lemma isBlank_of_free (h : ∀ u c v, run = u ++ c :: v → IsFreeBlank (a ++ u) c) :
    ∀ c ∈ run, isBlank c = true := by
  intro c hc
  obtain ⟨u, v, rfl⟩ := List.append_of_mem hc
  exact (h u c v rfl).1

end Text

namespace Token

open Text

variable {n : Nat} {a b t lexeme rest : Text} {kind : TokenKind}

/-- What a token at the head of a text can be. -/
inductive Form : TokenKind → Text → Text → Prop
  | blank {lexeme rest : Text} (h : ∀ c ∈ lexeme, isBlank c = true) : Form .blank lexeme rest
  | text {lexeme rest : Text} (h : ∀ c ∈ lexeme, isPlain c = true) : Form .text lexeme rest
  | escape {rest : Text} (c : Char) : Form .escape ['\\', c] rest
  /-- A backslash at the end of a line. -/
  | lone {rest : Text} (h : ∀ c ∈ rest.head?, c = '\n') : Form .escape ['\\'] rest

lemma form_of_munch (h : munch t = some (kind, lexeme, rest)) : Form kind lexeme rest := by
  have hall : ∀ {p : Char → Bool} {c : Char} {t : Text}, p c = true →
      ∀ d ∈ c :: t.takeWhile p, p d = true := by
    intro p c t hc d hd
    rcases List.mem_cons.1 hd with rfl | hd
    · exact hc
    · exact List.mem_takeWhile_imp hd
  cases t with
  | nil => simp [munch] at h
  | cons c t =>
    rcases isBlank_or_isPlain_or_backslash c with hb | hp | rfl
    · rw [munch_cons_of_isBlank hb] at h
      cases h
      exact .blank (hall hb)
    · rw [munch_cons_of_isPlain hp] at h
      cases h
      exact .text (hall hp)
    · rcases t with _ | ⟨d, t⟩
      · cases h
        exact .lone (by simp)
      · by_cases hd : d = '\n'
        · simp only [munch, hd, if_true] at h
          cases h
          exact .lone (by simp)
        · simp only [munch, hd, if_true, if_false] at h
          cases h
          exact .escape d

/-- In a token that is not made of blanks every blank is protected. -/
lemma Form.protects_of_isBlank (hf : Form kind lexeme rest) (hkind : kind ≠ .blank) {u v : Text} {c : Char}
    (hu : lexeme = u ++ c :: v) (hc : isBlank c = true) : protects u = true := by
  have hslash := ne_backslash_of_isBlank hc
  cases hf with
  | blank _ => exact absurd rfl hkind
  | text h =>
    have hplain := h c (by simp [hu])
    simp [isPlain, hc] at hplain
  | escape d =>
    rcases u with _ | ⟨x, _ | ⟨y, u⟩⟩
    · exact absurd (List.cons.inj hu).1.symm hslash
    · rw [← (List.cons.inj hu).1]
      rfl
    · simp at hu
  | lone _ =>
    rcases u with _ | ⟨x, u⟩
    · exact absurd (List.cons.inj hu).1.symm hslash
    · simp at hu

lemma Form.protects_eq_false (hf : Form kind lexeme rest) (hrest : rest ≠ []) (hfeed : '\n' ∉ rest) :
    protects lexeme = false := by
  cases hf with
  | blank h => exact protects_of_blanks h
  | text h =>
    refine protects_of_forall fun c hc => ?_
    have hplain := h c hc
    simp only [isPlain, Bool.and_eq_true, bne_iff_ne] at hplain
    exact hplain.2
  | escape c => rfl
  | lone h =>
    obtain ⟨c, rest, rfl⟩ := List.exists_cons_of_ne_nil hrest
    obtain rfl := h c rfl
    exact absurd List.mem_cons_self hfeed

lemma protects_of_joins (hfeed : '\n' ∉ a ++ b) (hb : b ≠ []) (h : Joins a b) : protects a = false := by
  rw [joins_iff 0] at h
  generalize hts : lexFrom 0 a = ts at h
  generalize 0 = n at hts
  induction ts generalizing n a with
  | nil =>
    rw [lexFrom_eq_nil_iff.1 hts]
    rfl
  | cons x us ih =>
    obtain ⟨rest, ha, hm, -, hrest⟩ := munch_of_lexFrom hts
    rw [ha, List.append_assoc, List.mem_append, not_or] at hfeed
    have hlast : ∀ y ∈ us.getLast?, ∀ c ∈ b.head?, y.kind.takes y.text c = false := by
      intro y hy
      apply h y
      rw [List.getLast?_cons, Option.mem_def.1 hy]
      rfl
    have hhead : ∀ c ∈ (rest ++ b).head?, x.kind.takes x.text c = false := by
      rw [ha, munch_append_iff] at hm
      cases rest with
      | nil =>
        rw [lexFrom_nil] at hrest
        subst hrest
        exact h x (by simp)
      | cons c rest => simpa using hm.2
    have hform : Form x.kind x.text (rest ++ b) := by
      rw [ha, munch_append_iff] at hm
      exact form_of_munch (munch_append_iff.2 ⟨hm.1, hhead⟩)
    rw [ha, protects_append (hform.protects_eq_false (by simp [hb]) hfeed.2)]
    exact ih hfeed.2 hlast _ hrest

lemma isSeparatorRun_of_append {u run v : Text} (h : isSeparatorRun (u ++ (run ++ v)) = false) :
    isSeparatorRun run = false := by
  simp only [isSeparatorRun, List.length_append, List.any_append, Bool.or_eq_false_iff,
    decide_eq_false_iff_not] at h ⊢
  exact ⟨by omega, h.2.2.1⟩

/-- Where no token is a separator, unprotected blanks separate nothing. -/
lemma isSeparatorRun_eq_false {u run v : Text} (hfeed : '\n' ∉ t)
    (hsep : ∀ x ∈ lexFrom n t, x.isSeparator = false) (ht : t = u ++ (run ++ v))
    (hrun : ∀ c ∈ run, isBlank c = true) (hfree : protects u = false) : isSeparatorRun run = false := by
  rcases run with _ | ⟨c, run⟩
  · rfl
  generalize hts : lexFrom n t = ts at hsep
  induction ts generalizing n t u with
  | nil =>
    rw [lexFrom_eq_nil_iff.1 hts] at ht
    simp at ht
  | cons x us ih =>
    obtain ⟨rest, hx, hm, -, hrest⟩ := munch_of_lexFrom hts
    rw [List.forall_mem_cons] at hsep
    have hform := form_of_munch hm
    rw [hx] at ht
    rw [hx, List.mem_append, not_or] at hfeed
    rcases List.append_eq_append_iff.1 ht with ⟨w, rfl, hw⟩ | ⟨w, hw, hwrest⟩
    · rw [protects_append (hform.protects_eq_false (by simp [hw]) hfeed.2)] at hfree
      exact ih hfeed.2 hfree hw hrest hsep.2
    · rcases w with _ | ⟨d, w⟩
      · exact ih (u := []) hfeed.2 rfl hwrest.symm hrest hsep.2
      · -- the run starts in this token, which is made of blanks then, and ends in it
        obtain rfl : c = d := (List.cons.inj hwrest).1
        have hkind : x.kind = .blank := by
          by_contra hkind
          have hprotected := hform.protects_of_isBlank hkind hw (hrun c List.mem_cons_self)
          rw [hfree] at hprotected
          cases hprotected
        have hnone : isSeparatorRun x.text = false := by simpa [isSeparator, hkind] using hsep.1
        rw [hw] at hnone
        rw [hx, munch_append_iff, hkind] at hm
        rcases List.append_eq_append_iff.1 hwrest with ⟨more, hmore, -⟩ | ⟨more, hmore, htail⟩
        · rw [hmore] at hnone
          exact isSeparatorRun_of_append hnone
        · rcases more with _ | ⟨d, more⟩
          · rw [List.append_nil] at hmore
            rw [← hmore, ← List.append_nil (c :: run)] at hnone
            exact isSeparatorRun_of_append hnone
          · have hblank := hrun d (by simp [hmore])
            have hnot : isBlank d = false := hm.2 d (by simp [htail])
            rw [hnot] at hblank
            cases hblank

end Token

end KeywordCompletion
