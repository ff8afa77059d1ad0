import Mathlib.Data.List.Basic
import KeywordCompletion.Text.Lowercase

/-!
# The lower-case form of a part of a text

Only a capital sigma has a lower-case form that depends on what stands around it. So a part of a text has the
form there that it has alone, unless it ends in a sigma that ends a word in the part but not in the text, or
starts with one that ends a word in the text but not in the part: `Text.lowercaseBetween_eq_iff`.
-/

namespace KeywordCompletion.Text

variable {t before part after : Text} {c x : Char} {behind ahead : Bool}

/-- Whether a cased character is the next one behind a character, if that is so before it. -/
def casedPast (c : Char) (cased : Bool) : Bool := if isCaseIgnorable c then cased else isCased c

/-- Whether a cased character stands before the end of a text, if `behind` tells so for its start. -/
def casedAfter (behind : Bool) (t : Text) : Bool := t.foldl (fun cased c => casedPast c cased) behind

/-- Whether a cased character stands before the end of a text, but for characters that case ignores. -/
def casedBehind (t : Text) : Bool := casedAfter false t

/-- Whether a cased character follows the start of a text, if `ahead` tells so for its end. -/
def casedBefore (t : Text) (ahead : Bool) : Bool := t.foldr casedPast ahead

/-- The lower-case form of a character, where `final` tells whether a word ends with it. -/
def formOf (c : Char) (final : Bool) : Text :=
  if c = 'Σ' then [if final then 'ς' else 'σ'] else lowercaseChar c

/-- The lower-case form of a text with something before it and behind it, where `behind` and `ahead` tell
whether cased characters stand there. -/
def lowercaseBetween (behind : Bool) : Text → Bool → Text
  | [], _ => []
  | c :: t, ahead =>
    formOf c (behind && !casedBefore t ahead) ++ lowercaseBetween (casedPast c behind) t ahead

/-- Whether a part ends, but for characters that case ignores, in a sigma behind a cased character. -/
def EndsInSigma (part : Text) : Prop :=
  ∃ u v, part = u ++ 'Σ' :: v ∧ casedBehind u = true ∧ v.all isCaseIgnorable = true

/-- Whether a part starts, but for characters that case ignores, with a sigma that no cased character
follows. -/
def StartsWithSigma (part after : Text) : Prop :=
  ∃ u v, part = u ++ 'Σ' :: v ∧ u.all isCaseIgnorable = true ∧ casedAhead (v ++ after) = false

/-- Whether no sigma of a part ends a word in the part only, or in the text around it only. -/
structure KeepsForm (before part after : Text) : Prop where
  stop : ¬ (EndsInSigma part ∧ casedAhead after = true)
  start : ¬ (casedBehind before = true ∧ StartsWithSigma part after)

lemma exists_cons_eq_append_iff {P : Text → Text → Prop} : (∃ u v, c :: t = u ++ x :: v ∧ P u v) ↔
    (c = x ∧ P [] t) ∨ ∃ u v, t = u ++ x :: v ∧ P (c :: u) v := by
  constructor
  · rintro ⟨u, v, ht, hP⟩
    rcases List.cons_eq_append_iff.1 ht with ⟨rfl, hcons⟩ | ⟨u, rfl, rfl⟩
    · obtain ⟨rfl, rfl⟩ := List.cons.inj hcons
      exact Or.inl ⟨rfl, hP⟩
    · exact Or.inr ⟨u, v, rfl, hP⟩
  · rintro (⟨rfl, hP⟩ | ⟨u, v, rfl, hP⟩)
    · exact ⟨[], t, rfl, hP⟩
    · exact ⟨c :: u, v, rfl, hP⟩

instance decidableExistsAppend (x : Char) : (t : Text) → (P : Text → Text → Prop) →
    [∀ u v, Decidable (P u v)] → Decidable (∃ u v, t = u ++ x :: v ∧ P u v)
  | [], _, _ => isFalse (by simp)
  | c :: t, P, _ =>
    have := decidableExistsAppend x t fun u v => P (c :: u) v
    decidable_of_iff' _ exists_cons_eq_append_iff

instance (part : Text) : Decidable (EndsInSigma part) :=
  inferInstanceAs (Decidable (∃ u v, part = u ++ 'Σ' :: v ∧ casedBehind u = true ∧
    v.all isCaseIgnorable = true))

instance (part after : Text) : Decidable (StartsWithSigma part after) :=
  inferInstanceAs (Decidable (∃ u v, part = u ++ 'Σ' :: v ∧ u.all isCaseIgnorable = true ∧
    casedAhead (v ++ after) = false))

lemma keepsForm_iff : KeepsForm before part after ↔ ¬ (EndsInSigma part ∧ casedAhead after = true) ∧
    ¬ (casedBehind before = true ∧ StartsWithSigma part after) :=
  ⟨fun h => ⟨h.stop, h.start⟩, fun h => ⟨h.1, h.2⟩⟩

instance (before part after : Text) : Decidable (KeepsForm before part after) :=
  decidable_of_iff' _ keepsForm_iff

lemma casedPast_of_ignorable (h : isCaseIgnorable c = true) (cased : Bool) : casedPast c cased = cased :=
  if_pos h

lemma casedPast_of_not_ignorable (h : isCaseIgnorable c = false) (cased : Bool) :
    casedPast c cased = isCased c := by
  rw [casedPast, h]
  rfl

lemma casedAfter_cons (behind : Bool) (c : Char) (t : Text) :
    casedAfter behind (c :: t) = casedAfter (casedPast c behind) t := rfl

lemma casedBefore_cons (c : Char) (t : Text) (ahead : Bool) :
    casedBefore (c :: t) ahead = casedPast c (casedBefore t ahead) := rfl

lemma casedAhead_cons (c : Char) (t : Text) : casedAhead (c :: t) = casedPast c (casedAhead t) := by
  rw [casedAhead, List.dropWhile_cons, casedPast]
  cases isCaseIgnorable c <;> rfl

lemma casedAhead_append (t after : Text) : casedAhead (t ++ after) = casedBefore t (casedAhead after) := by
  induction t with
  | nil => rfl
  | cons c t ih => rw [List.cons_append, casedAhead_cons, ih, casedBefore_cons]

/-- What follows a text counts for its start only if case ignores all of the text. -/
lemma casedBefore_eq_iff (t : Text) : casedBefore t true = casedBefore t false ↔
    ¬ t.all isCaseIgnorable = true := by
  induction t with
  | nil => simp [casedBefore]
  | cons c t ih =>
    rw [casedBefore_cons, casedBefore_cons, List.all_cons]
    cases hc : isCaseIgnorable c with
    | true => simpa [casedPast_of_ignorable hc] using ih
    | false => simp [casedPast_of_not_ignorable hc]

lemma lowercaseFrom_append (behind : Bool) (t after : Text) : lowercaseFrom behind (t ++ after) =
    lowercaseBetween behind t (casedAhead after) ++ lowercaseFrom (casedAfter behind t) after := by
  induction t generalizing behind with
  | nil => rfl
  | cons c t ih =>
    rw [List.cons_append, lowercaseFrom, lowercaseBetween, casedAhead_append, List.append_assoc,
      casedAfter_cons, ← ih]
    rfl

lemma lowercase_eq_between (t : Text) : lowercase t = lowercaseBetween false t false := by
  have h := lowercaseFrom_append false t []
  rw [List.append_nil] at h
  exact h.trans (List.append_nil _)

lemma length_formOf (c : Char) (final final' : Bool) : (formOf c final).length = (formOf c final').length := by
  rw [formOf, formOf]
  split <;> rfl

lemma length_lowercaseBetween (behind behind' : Bool) (t : Text) (ahead ahead' : Bool) :
    (lowercaseBetween behind t ahead).length = (lowercaseBetween behind' t ahead').length := by
  induction t generalizing behind behind' with
  | nil => rfl
  | cons c t ih =>
    rw [lowercaseBetween, lowercaseBetween, List.length_append, List.length_append,
      ih (casedPast c behind) (casedPast c behind'), length_formOf]

lemma formOf_eq_iff {final final' : Bool} : formOf c final = formOf c final' ↔ (c = 'Σ' → final = final') := by
  rw [formOf, formOf]
  by_cases hc : c = 'Σ'
  · rw [if_pos hc, if_pos hc]
    cases final <;> cases final' <;> simp [hc]
  · rw [if_neg hc, if_neg hc]
    simp [hc]

/-- Where the forms of a text differ, a sigma or what is behind it does. -/
lemma lowercaseBetween_cons_eq_iff {behind' ahead' : Bool} :
    lowercaseBetween behind (c :: t) ahead = lowercaseBetween behind' (c :: t) ahead' ↔
      (c = 'Σ' → (behind && !casedBefore t ahead) = (behind' && !casedBefore t ahead')) ∧
      lowercaseBetween (casedPast c behind) t ahead = lowercaseBetween (casedPast c behind') t ahead' := by
  rw [lowercaseBetween, lowercaseBetween, ← formOf_eq_iff]
  constructor
  · exact fun h => List.append_inj h (length_formOf _ _ _)
  · rintro ⟨hform, hrest⟩
    rw [hform, hrest]

lemma lowercaseBetween_true_eq_iff (behind : Bool) (t : Text) :
    lowercaseBetween behind t true = lowercaseBetween behind t false ↔
      ¬ ∃ u v, t = u ++ 'Σ' :: v ∧ casedAfter behind u = true ∧ v.all isCaseIgnorable = true := by
  induction t generalizing behind with
  | nil => simp [lowercaseBetween]
  | cons c t ih =>
    rw [lowercaseBetween_cons_eq_iff, exists_cons_eq_append_iff, ih, not_or]
    apply and_congr_left'
    cases behind with
    | false => simp [casedAfter]
    | true => simp [casedAfter, casedBefore_eq_iff]

/-- A part of a text has the form there that it has alone exactly if no sigma ends a word in one of them
only. -/
theorem lowercaseBetween_eq_iff (before part after : Text) :
    lowercaseBetween (casedBehind before) part (casedAhead after) = lowercase part ↔
      KeepsForm before part after := by
  rw [lowercase_eq_between, keepsForm_iff]
  unfold EndsInSigma StartsWithSigma casedBehind
  simp only [casedAhead_append]
  generalize casedAfter false before = behind
  generalize casedAhead after = ahead
  induction part with
  | nil => simp [lowercaseBetween]
  | cons c t ih =>
    rw [lowercaseBetween_cons_eq_iff, exists_cons_eq_append_iff, exists_cons_eq_append_iff]
    cases hc : isCaseIgnorable c with
    | true =>
      have hsigma : c ≠ 'Σ' := by
        rintro rfl
        exact absurd hc (by decide +kernel)
      simp only [casedAfter_cons, casedPast_of_ignorable hc, ih]
      simp [hsigma, hc]
    | false =>
      -- a sigma here is the first one that counts, and not the last one, as nothing cased is behind it
      have hstart : (c = 'Σ' → (behind && !casedBefore t ahead) = false) ↔
          ¬ (behind = true ∧ c = 'Σ' ∧ casedBefore t ahead = false) := by
        cases behind <;> simp
      have hstop : lowercaseBetween (isCased c) t ahead = lowercaseBetween (isCased c) t false ↔
          ¬ ((∃ u v, t = u ++ 'Σ' :: v ∧ casedAfter (isCased c) u = true ∧
            v.all isCaseIgnorable = true) ∧ ahead = true) := by
        cases ahead with
        | false => simp
        | true => rw [lowercaseBetween_true_eq_iff, and_iff_left rfl]
      have hnil : casedAfter false [] = false := rfl
      simp only [casedAfter_cons, casedPast_of_not_ignorable hc, hstop, hnil, List.all_cons,
        List.all_nil, hc, Bool.false_and, Bool.false_eq_true, false_and, and_false, exists_const, false_or,
        or_false, true_and]
      rw [hstart]
      exact and_comm

/-- A text starts with the lower-case form of its start where that start keeps its form. -/
lemma lowercase_prefix_append_iff (part after : Text) :
    lowercase part <+: lowercase (part ++ after) ↔ KeepsForm [] part after := by
  have happend : lowercase (part ++ after) = lowercaseBetween (casedBehind []) part (casedAhead after) ++
      lowercaseFrom (casedAfter false part) after := lowercaseFrom_append false part after
  rw [← lowercaseBetween_eq_iff, happend]
  constructor
  · intro h
    have hlength : (lowercaseBetween (casedBehind []) part (casedAhead after)).length =
        (lowercase part).length := by
      rw [lowercase_eq_between, length_lowercaseBetween]
    exact (List.prefix_of_prefix_length_le (List.prefix_append _ _) h (Nat.le_of_eq hlength)).eq_of_length hlength
  · intro h
    rw [h]
    exact List.prefix_append _ _

lemma KeepsForm.lowercase_infix (h : KeepsForm before part after) :
    lowercase part <:+: lowercase (before ++ (part ++ after)) := by
  have hpart : lowercaseBetween (casedAfter false before) part (casedAhead after) = lowercase part :=
    (lowercaseBetween_eq_iff before part after).2 h
  have happend : lowercase (before ++ (part ++ after)) =
      lowercaseBetween false before (casedAhead (part ++ after)) ++ (lowercase part ++
        lowercaseFrom (casedAfter (casedAfter false before) part) after) := by
    rw [lowercase, lowercaseFrom_append, lowercaseFrom_append, hpart]
  rw [happend]
  exact List.infix_append' _ _ _

end KeywordCompletion.Text
