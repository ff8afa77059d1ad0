import Mathlib.Data.List.DropRight
import KeywordCompletion.Text.Basic

/-!
# Texts without their ends

`Text.trim` leaves what stands between the longest ends of a text in a class of characters. It changes a text
exactly if the text starts or ends in the class.
-/

namespace KeywordCompletion.Text

variable {p : Char → Bool} {t u : Text}

/-- A text that neither starts nor ends in a class of characters. -/
def IsTrimmed (p : Char → Bool) (t : Text) : Prop := t.head?.any p = false ∧ t.getLast?.any p = false
  deriving Decidable

lemma any_head?_dropWhile (p : Char → Bool) (t : Text) : (t.dropWhile p).head?.any p = false := by
  have h := List.head?_dropWhile_not p t
  cases hc : (t.dropWhile p).head? with
  | none => rfl
  | some c => simpa [hc] using h

lemma dropWhile_eq_self (h : t.head?.any p = false) : t.dropWhile p = t := by
  cases t with
  | nil => rfl
  | cons c t => exact List.dropWhile_cons_of_neg (by simpa using h)

lemma any_getLast?_dropWhile (q : Char → Bool) (h : t.getLast?.any p = false) :
    (t.dropWhile q).getLast?.any p = false := by
  by_cases hnil : t.dropWhile q = []
  · rw [hnil]
    rfl
  · rw [← List.takeWhile_append_dropWhile (p := q) (l := t), List.getLast?_append_of_ne_nil _ hnil] at h
    exact h

lemma any_getLast?_trimEnd (p : Char → Bool) (t : Text) : (trimEnd p t).getLast?.any p = false := by
  rw [trimEnd, List.getLast?_reverse]
  exact any_head?_dropWhile p t.reverse

lemma exists_trimEnd_append (p : Char → Bool) (t : Text) :
    ∃ after, t = trimEnd p t ++ after ∧ (∀ c ∈ after, p c = true) ∧
      ∀ c ∈ (trimEnd p t).getLast?, p c = false := by
  refine ⟨t.rtakeWhile p, List.rdropWhile_append_rtakeWhile.symm, fun c => List.mem_rtakeWhile_imp, ?_⟩
  intro c hc
  have hlast := any_getLast?_trimEnd p t
  rwa [Option.mem_def.1 hc] at hlast

lemma trimEnd_eq_self (h : t.getLast?.any p = false) : trimEnd p t = t := by
  rw [trimEnd, dropWhile_eq_self (by rwa [List.head?_reverse]), List.reverse_reverse]

lemma trimEnd_append_of_forall (t : Text) (h : ∀ c ∈ u, p c = true) : trimEnd p (t ++ u) = trimEnd p t := by
  rw [trimEnd, List.reverse_append, List.dropWhile_append_of_pos (by simpa using h), trimEnd]

lemma trimEnd_append (t : Text) (h : ∃ c ∈ u, p c = false) : trimEnd p (t ++ u) = t ++ trimEnd p u := by
  obtain ⟨c, hc, hpc⟩ := h
  have hne : u.reverse.dropWhile p ≠ [] := by
    intro hnil
    have hall := List.dropWhile_eq_nil_iff.1 hnil c (List.mem_reverse.2 hc)
    simp [hpc] at hall
  rw [trimEnd, List.reverse_append, List.dropWhile_append, if_neg (by simpa using hne)]
  simp [trimEnd]

lemma isTrimmed_trim (p : Char → Bool) (t : Text) : IsTrimmed p (trim p t) := by
  refine ⟨?_, any_getLast?_trimEnd p _⟩
  obtain ⟨after, hafter, -⟩ := exists_trimEnd_append p (t.dropWhile p)
  have hhead := any_head?_dropWhile p t
  rw [trim]
  cases hcut : trimEnd p (t.dropWhile p) with
  | nil => rfl
  | cons c u =>
    rw [hafter, hcut] at hhead
    exact hhead

lemma exists_append_trim (p : Char → Bool) (t : Text) :
    ∃ before after, t = before ++ (trim p t ++ after) ∧ ∀ c ∈ before, p c = true := by
  obtain ⟨after, hafter, -⟩ := exists_trimEnd_append p (t.dropWhile p)
  refine ⟨t.takeWhile p, after, ?_, fun c => List.mem_takeWhile_imp⟩
  rw [trim, ← hafter, List.takeWhile_append_dropWhile]

lemma trim_sublist (p : Char → Bool) (t : Text) : (trim p t).Sublist t :=
  (List.rdropWhile_prefix p _).sublist.trans (List.dropWhile_sublist p)

lemma trim_eq_self_iff : trim p t = t ↔ IsTrimmed p t := by
  constructor
  · intro h
    rw [← h]
    exact isTrimmed_trim p t
  · rintro ⟨hhead, hlast⟩
    rw [trim, dropWhile_eq_self hhead, trimEnd_eq_self hlast]

end KeywordCompletion.Text
