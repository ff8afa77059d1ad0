import KeywordCompletion.Proofs.Text.Lowercase
import KeywordCompletion.Text.Blank

/-!
# Lower-case forms have no other form

The lower-case form of a text consists of characters that are their own form wherever they stand, so it is its
own lower-case form: `Text.lowercase_lowercase`. White space and full stops have no other form and are the form
of nothing else, so a text starts or ends with one of them exactly if its form does.

The table of forms is looked at run by run and not character by character: `isApart` compares all forms of one
run with another run.
-/

namespace KeywordCompletion.Text

variable {c d : Char} {t : Text} {n : Nat} {run other : Nat × Nat × Nat × Int}

/-- A character that is its own lower-case form, whatever stands around it. -/
def IsLower (c : Char) : Prop := c ≠ 'Σ' ∧ lowercaseChar c = [c]
  deriving Decidable

/-- Neither white space nor a full stop. -/
def IsInner (c : Char) : Prop := isWhiteSpace c = false ∧ c ≠ '.'
  deriving Decidable

/-- Whether a code point is in a run of the table. -/
def inRun (run : Nat × Nat × Nat × Int) (n : Nat) : Bool :=
  run.1 ≤ n && n ≤ run.2.1 && (n - run.1) % run.2.2.1 == 0

/-- The code point of the form of a code point in a run. -/
def formIn (run : Nat × Nat × Nat × Int) (n : Nat) : Nat := (n + run.2.2.2).toNat

/-- Whether no number of a progression is in a run. All steps are 1 or 2, and two progressions with step 2 may lie
within each other. -/
def isApart (first last step : Nat) (run : Nat × Nat × Nat × Int) : Bool :=
  last.blt run.1 || run.2.1.blt first ||
    (run.2.2.1 == 2 && (step == 2 || first == last) && (first + run.1) % 2 == 1)

/-- The white space and the full stop, as code points. -/
def outerRanges : List (Nat × Nat) := [
  (0x09, 0x0D), (0x20, 0x20), (0x2E, 0x2E), (0x85, 0x85), (0xA0, 0xA0), (0x1680, 0x1680), (0x2000, 0x200A),
  (0x2028, 0x2029), (0x202F, 0x202F), (0x205F, 0x205F), (0x3000, 0x3000)]

/-- Whether a run and its forms are of characters other than white space and the full stop, and no form is `İ`,
which is in no run. -/
def isInnerRun (run : Nat × Nat × Nat × Int) : Bool :=
  0 ≤ run.1 + run.2.2.2 && (formIn run run.2.1 < 0xD800 || 0xDFFF < formIn run run.1) &&
    formIn run run.2.1 < 0x110000 && (formIn run run.2.1 < 0x130 || 0x130 < formIn run run.1) &&
    outerRanges.all fun (first, last) =>
      (run.2.1 < first || last < run.1) && (formIn run run.2.1 < first || last < formIn run run.1)

lemma isApart_of_mem : ∀ run ∈ lowercaseRuns, ∀ other ∈ lowercaseRuns,
    isApart (formIn run run.1) (formIn run run.2.1) run.2.2.1 other = true := by
  simp only [← List.all_eq_true]
  decide +kernel

lemma isInnerRun_of_mem : ∀ run ∈ lowercaseRuns, isInnerRun run = true := by
  simp only [← List.all_eq_true]
  decide +kernel

lemma not_inRun_formIn (hrun : run ∈ lowercaseRuns) (hother : other ∈ lowercaseRuns) (hn : inRun run n = true) :
    inRun other (formIn run n) = false := by
  have hapart := isApart_of_mem run hrun other hother
  have hfirst := isInnerRun_of_mem run hrun
  by_contra hin
  simp only [inRun, isApart, isInnerRun, Bool.not_eq_false, Bool.and_eq_true, Bool.or_eq_true, decide_eq_true_eq,
    Nat.blt_eq, beq_iff_eq] at *
  simp only [formIn] at *
  obtain ⟨⟨hge, hle⟩, hstep⟩ := hn
  obtain ⟨⟨hge', hle'⟩, hstep'⟩ := hin
  rcases hapart with (h | h) | ⟨⟨htwo, hsame⟩, hodd⟩
  · omega
  · omega
  · rw [htwo] at hstep'
    rcases hsame with htwo | hsame
    · rw [htwo] at hstep
      omega
    · omega

lemma isInner_iff : IsInner c ↔ ∀ r ∈ outerRanges, c.toNat < r.1 ∨ r.2 < c.toNat := by
  have hstop : c ≠ '.' ↔ c.toNat ≠ 0x2E := by
    rw [ne_eq, Char.ext_iff, UInt32.ext_iff]
    rfl
  rw [IsInner, hstop]
  simp [isWhiteSpace, outerRanges]
  omega

lemma toNat_ofNat (h : n.isValidChar) : (Char.ofNat n).toNat = n := by
  rw [Char.ofNat, dif_pos h]
  rfl

lemma isInner_of_inRun (hmem : run ∈ lowercaseRuns) (hn : inRun run c.toNat = true) : IsInner c := by
  have h := isInnerRun_of_mem run hmem
  simp only [isInnerRun, inRun, Bool.and_eq_true, Bool.or_eq_true, decide_eq_true_eq, beq_iff_eq,
    List.all_eq_true] at *
  refine isInner_iff.2 fun r hr => ?_
  have := (h.2 r hr).1
  omega

lemma toNat_formIn (hmem : run ∈ lowercaseRuns) (hn : inRun run n = true) :
    (Char.ofNat (formIn run n)).toNat = formIn run n ∧ formIn run n ≠ 0x130 ∧
      IsInner (Char.ofNat (formIn run n)) := by
  have h := isInnerRun_of_mem run hmem
  have hform : formIn run run.1 ≤ formIn run n ∧ formIn run n ≤ formIn run run.2.1 := by
    simp only [inRun, Bool.and_eq_true, decide_eq_true_eq] at hn
    simp only [formIn]
    omega
  simp only [isInnerRun, Bool.and_eq_true, Bool.or_eq_true, decide_eq_true_eq, List.all_eq_true] at h
  obtain ⟨⟨⟨⟨-, hgap⟩, hlast⟩, hdotted⟩, hranges⟩ := h
  have htoNat : (Char.ofNat (formIn run n)).toNat = formIn run n := by
    apply toNat_ofNat
    rw [Nat.isValidChar]
    omega
  refine ⟨htoNat, by omega, isInner_iff.2 fun r hr => ?_⟩
  have := (hranges r hr).2
  omega

lemma lowercaseChar_ascii : ∀ n < 0x80, lowercaseChar (Char.ofNat n) =
    ((lowercaseRuns.find? (inRun · n)).map (formIn · n)).elim [Char.ofNat n] fun m => [Char.ofNat m] := by
  decide +kernel

lemma lowercaseChar_eq (hc : c ≠ 'İ') : lowercaseChar c =
    ((lowercaseRuns.find? (inRun · c.toNat)).map (formIn · c.toNat)).elim [c] fun m => [Char.ofNat m] := by
  by_cases hascii : c.toNat < 0x80
  · simpa only [Char.ofNat_toNat] using lowercaseChar_ascii c.toNat hascii
  · rw [lowercaseChar, if_neg hascii, if_neg hc]
    dsimp only
    split
    · rename_i hfind
      have hrun : lowercaseRuns.find? (inRun · c.toNat) = some _ := hfind
      rw [hrun]
      rfl
    · rename_i hfind
      have hnone : lowercaseRuns.find? (inRun · c.toNat) = none := hfind
      rw [hnone]
      rfl

lemma isLower_formIn (hmem : run ∈ lowercaseRuns) (hn : inRun run n = true) :
    IsLower (Char.ofNat (formIn run n)) := by
  obtain ⟨htoNat, hdotted, -⟩ := toNat_formIn hmem hn
  have hnone (other) (hother : other ∈ lowercaseRuns) : inRun other (Char.ofNat (formIn run n)).toNat = false := by
    rw [htoNat]
    exact not_inRun_formIn hmem hother hn
  constructor
  · intro hsigma
    rw [hsigma] at hnone
    exact absurd hnone (by decide +kernel)
  · have hne : Char.ofNat (formIn run n) ≠ 'İ' := by
      intro h
      rw [h] at htoNat
      exact hdotted htoNat.symm
    have hfind : lowercaseRuns.find? (inRun · (Char.ofNat (formIn run n)).toNat) = none := by
      simpa using hnone
    rw [lowercaseChar_eq hne, hfind]
    rfl

/-- A character is its own form, or a letter whose form consists of letters that are their own. -/
lemma formOf_eq_self_or (c : Char) (final : Bool) : (formOf c final = [c] ∧ IsLower c) ∨
    (IsInner c ∧ formOf c final ≠ [] ∧ ∀ d ∈ formOf c final, IsLower d ∧ IsInner d) := by
  by_cases hsigma : c = 'Σ'
  · subst hsigma
    right
    have hform : formOf 'Σ' final = [if final then 'ς' else 'σ'] := rfl
    simp only [hform, List.forall_mem_singleton]
    cases final <;> decide +kernel
  rw [formOf, if_neg hsigma]
  by_cases hdotted : c = 'İ'
  · subst hdotted
    right
    have hform : lowercaseChar 'İ' = ['i', '\u0307'] := by decide +kernel
    simp only [hform, List.forall_mem_cons]
    exact ⟨by decide, by simp, by decide +kernel, by decide +kernel, by simp⟩
  have heq := lowercaseChar_eq hdotted
  cases hfind : lowercaseRuns.find? (inRun · c.toNat) with
  | none =>
    rw [hfind] at heq
    exact Or.inl ⟨heq, hsigma, heq⟩
  | some run =>
    rw [hfind] at heq
    have hmem := List.mem_of_find?_eq_some hfind
    have hn := List.find?_some hfind
    right
    refine ⟨isInner_of_inRun hmem hn, by simp [heq], ?_⟩
    simp only [heq, Option.map_some, Option.elim_some, List.mem_singleton, forall_eq]
    exact ⟨isLower_formIn hmem hn, (toNat_formIn hmem hn).2.2⟩

lemma isLower_of_mem (behind : Bool) (t : Text) (ahead : Bool) :
    ∀ d ∈ lowercaseBetween behind t ahead, IsLower d := by
  induction t generalizing behind with
  | nil => simp [lowercaseBetween]
  | cons c t ih =>
    intro d hd
    rw [lowercaseBetween, List.mem_append] at hd
    rcases hd with hd | hd
    · rcases formOf_eq_self_or c (behind && !casedBefore t ahead) with ⟨hself, hc⟩ | ⟨-, -, hform⟩
      · rw [hself, List.mem_singleton] at hd
        rwa [hd]
      · exact (hform d hd).1
    · exact ih _ d hd

lemma lowercaseBetween_eq_self (h : ∀ c ∈ t, IsLower c) (behind ahead : Bool) :
    lowercaseBetween behind t ahead = t := by
  induction t generalizing behind with
  | nil => rfl
  | cons c t ih =>
    rw [List.forall_mem_cons] at h
    rw [lowercaseBetween, formOf, if_neg h.1.1, h.1.2, ih h.2]
    rfl

lemma lowercase_eq_self_iff : lowercase t = t ↔ ∀ c ∈ t, IsLower c := by
  rw [lowercase_eq_between]
  constructor
  · intro h c hc
    rw [← h] at hc
    exact isLower_of_mem _ _ _ c hc
  · exact fun h => lowercaseBetween_eq_self h _ _

theorem lowercase_lowercase (t : Text) : lowercase (lowercase t) = lowercase t := by
  rw [lowercase_eq_self_iff, lowercase_eq_between]
  exact isLower_of_mem _ _ _

lemma formOf_ne_nil (c : Char) (final : Bool) : formOf c final ≠ [] := by
  rcases formOf_eq_self_or c final with ⟨hself, -⟩ | ⟨-, hne, -⟩
  · simp [hself]
  · exact hne

section Ends

variable {p : Char → Bool}

/-- A class of characters without letters that have another form. -/
lemma any_formOf (hp : ∀ c, IsInner c → p c = false) (c : Char) (final : Bool) :
    (formOf c final).head?.any p = p c ∧ (formOf c final).getLast?.any p = p c := by
  rcases formOf_eq_self_or c final with ⟨hself, -⟩ | ⟨hc, hne, hform⟩
  · simp [hself]
  · rw [hp c hc, List.head?_eq_some_head hne, List.getLast?_eq_some_getLast hne]
    exact ⟨hp _ (hform _ (List.head_mem hne)).2, hp _ (hform _ (List.getLast_mem hne)).2⟩

lemma any_head?_lowercase (hp : ∀ c, IsInner c → p c = false) (t : Text) :
    (lowercase t).head?.any p = t.head?.any p := by
  rw [lowercase_eq_between]
  cases t with
  | nil => rfl
  | cons c t =>
    rw [lowercaseBetween, List.head?_append_of_ne_nil _ (formOf_ne_nil _ _), (any_formOf hp _ _).1]
    rfl

lemma any_getLast?_lowercase (hp : ∀ c, IsInner c → p c = false) (t : Text) :
    (lowercase t).getLast?.any p = t.getLast?.any p := by
  rcases List.eq_nil_or_concat t with rfl | ⟨s, c, rfl⟩
  · rfl
  · have hlast : lowercaseFrom (casedAfter false s) [c] = formOf c (casedAfter false s && !casedAhead []) := by
      rw [lowercaseFrom, lowercaseFrom, List.append_nil]
      rfl
    rw [List.concat_eq_append, lowercase, lowercaseFrom_append, hlast,
      List.getLast?_append_of_ne_nil _ (formOf_ne_nil _ _), (any_formOf hp _ _).2]
    simp

end Ends

lemma lowercaseChar_of_ascii (h : c.toNat < 0x80) : lowercaseChar c = [c.toLower] := if_pos h

lemma lowercase_of_ascii (h : ∀ c ∈ t, c.toNat < 0x80) : lowercase t = t.map Char.toLower := by
  rw [lowercase]
  generalize false = behind
  induction t generalizing behind with
  | nil => rfl
  | cons c t ih =>
    rw [List.forall_mem_cons] at h
    have hsigma : c ≠ 'Σ' := by
      rintro rfl
      exact absurd h.1 (by decide)
    rw [lowercaseFrom, if_neg hsigma, lowercaseChar_of_ascii h.1, ih h.2]
    rfl

lemma toLower_of_le (h : 0x80 ≤ c.toNat) : c.toLower = c := by
  unfold Char.toLower
  refine dif_neg fun hupper => ?_
  have hle : c.toNat ≤ 'Z'.toNat := UInt32.le_iff_toNat_le.1 hupper.2
  have hz : 'Z'.toNat < 0x80 := by decide
  omega

lemma toNat_lt_of_toLower (h : c.toLower.toNat < 0x80) : c.toNat < 0x80 := by
  by_contra hlarge
  rw [toLower_of_le (by omega)] at h
  exact hlarge h

/-- A text that is equal to one in ASCII up to the case of ASCII letters has that one's lower case. -/
lemma lowercase_of_eqIgnoringAsciiCase {s : Text} (hascii : s.all fun c => c.toLower.toNat < 0x80)
    (h : eqIgnoringAsciiCase s t = true) : lowercase t = s.map Char.toLower := by
  have hs : ∀ c ∈ s.map Char.toLower, c.toNat < 0x80 := by simpa using hascii
  rw [eqIgnoringAsciiCase, beq_iff_eq] at h
  rw [h] at hs ⊢
  exact lowercase_of_ascii fun c hc => toNat_lt_of_toLower (hs c.toLower (List.mem_map_of_mem hc))

/-- The only characters beyond ASCII with an ASCII character in their form are `İ` and the Kelvin sign. -/
lemma le_formIn_of_mem : ∀ run ∈ lowercaseRuns,
    run.2.1 < 0x80 ∨ 0x80 ≤ formIn run run.1 ∨ (run.1 = run.2.1 ∧ formIn run run.1 = 'k'.toNat) := by
  decide +kernel

/-- A character whose form is in ASCII without a `k` is in ASCII itself. -/
lemma toNat_lt_of_lowercaseChar (h : ∀ d ∈ lowercaseChar c, d.toNat < 0x80 ∧ d ≠ 'k') : c.toNat < 0x80 := by
  by_cases hdotted : c = 'İ'
  · subst hdotted
    have hform : lowercaseChar 'İ' = ['i', '\u0307'] := by decide +kernel
    rw [hform] at h
    exact absurd (h '\u0307' (by simp)).1 (by decide)
  rw [lowercaseChar_eq hdotted] at h
  cases hfind : lowercaseRuns.find? (inRun · c.toNat) with
  | none =>
    rw [hfind] at h
    exact (h c (by simp)).1
  | some run =>
    rw [hfind] at h
    have hmem := List.mem_of_find?_eq_some hfind
    have hn := List.find?_some hfind
    obtain ⟨hlt, hk⟩ := h (Char.ofNat (formIn run c.toNat)) (by simp)
    rw [(toNat_formIn hmem hn).1] at hlt
    simp only [inRun, Bool.and_eq_true, decide_eq_true_eq] at hn
    obtain ⟨⟨hfirst, hlast⟩, -⟩ := hn
    rcases le_formIn_of_mem run hmem with hascii | hbeyond | ⟨hsingle, hkelvin⟩
    · omega
    · simp only [formIn] at hbeyond hlt
      omega
    · rw [show c.toNat = run.1 by omega, hkelvin] at hk
      exact absurd rfl hk

/-- In ASCII and without a `k`, the forms of the characters of a text are its ASCII letters in lower case. -/
lemma flatMap_lowercaseChar_eq_iff {s : Text} (hs : ∀ d ∈ s, d.toNat < 0x80 ∧ d ≠ 'k') :
    t.flatMap lowercaseChar = s ↔ t.map Char.toLower = s := by
  have hmap (h : ∀ c ∈ t, c.toNat < 0x80) : t.flatMap lowercaseChar = t.map Char.toLower := by
    rw [List.map_eq_flatMap]
    exact List.flatMap_congr fun c hc => lowercaseChar_of_ascii (h c hc)
  constructor
  · rintro rfl
    refine (hmap fun c hc => toNat_lt_of_lowercaseChar fun d hd => hs d ?_).symm
    exact List.mem_flatMap.2 ⟨c, hc, hd⟩
  · rintro rfl
    exact hmap fun c hc => toNat_lt_of_toLower (hs _ (List.mem_map_of_mem hc)).1

end KeywordCompletion.Text
