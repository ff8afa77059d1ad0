import Mathlib.Data.List.TakeWhile
import Mathlib.Tactic.Common
import KeywordCompletion.Text.Blank

/-!
# Slices of a text

A text is divided at a byte in one way only, and so it is where a run of characters of one class ends.
-/

namespace KeywordCompletion.Text

lemma takeWhile_append_eq_iff {p : Char → Bool} {l r : Text} :
    (l ++ r).takeWhile p = l ∧ (l ++ r).dropWhile p = r ↔
      (∀ c ∈ l, p c = true) ∧ ∀ c ∈ r.head?, p c = false := by
  induction l with
  | nil =>
    cases r with
    | nil => simp
    | cons c r => by_cases hc : p c = true <;> simp [hc]
  | cons c l ih =>
    by_cases hc : p c = true
    · simp only [List.cons_append, List.takeWhile_cons_of_pos hc, List.dropWhile_cons_of_pos hc,
        List.cons.injEq, true_and, ih, List.forall_mem_cons, hc]
    · simp only [List.cons_append, List.takeWhile_cons_of_neg hc, List.forall_mem_cons, hc]
      simp

lemma takeWhile_eq_self_iff {p : Char → Bool} {l : Text} :
    l.takeWhile p = l ∧ l.dropWhile p = [] ↔ ∀ c ∈ l, p c = true := by
  have h := @takeWhile_append_eq_iff p l []
  simp only [List.append_nil, List.head?_nil, Option.mem_def, reduceCtorEq, false_implies, implies_true,
    and_true] at h
  exact h

lemma append_inj_of_size {a b a' b' : Text} (h : a ++ b = a' ++ b') (hsize : size a = size a') :
    a = a' ∧ b = b' := by
  have hdrop := drop?_size_append a b
  rw [h, hsize, drop?_size_append, Option.some.injEq] at hdrop
  subst hdrop
  exact ⟨List.append_cancel_right h, rfl⟩

/-- Of two parts at the head of a text the one with fewer bytes is the head of the other one. -/
lemma exists_append_of_size_le {a b a' b' : Text} (h : a ++ b = a' ++ b') (hsize : size a ≤ size a') :
    ∃ u, a' = a ++ u ∧ b = u ++ b' := by
  rcases List.append_eq_append_iff.1 h with ⟨u, ha', hb⟩ | ⟨u, rfl, rfl⟩
  · exact ⟨u, ha', hb⟩
  · cases u with
    | nil => exact ⟨[], by simp, by simp⟩
    | cons c u =>
      have hpos := c.utf8Size_pos
      rw [size_append, size_cons] at hsize
      omega

/-- Of two parts at the head of a text the one with fewer bytes has no more units of UTF-16. -/
lemma units16_le_of_size_le {a b a' b' : Text} (h : a ++ b = a' ++ b') (hsize : size a ≤ size a') :
    units16 a ≤ units16 a' := by
  obtain ⟨u, rfl, -⟩ := exists_append_of_size_le h hsize
  rw [units16_append]
  exact Nat.le_add_right _ _

/-- Of two parts at the head of a text the one with fewer units of UTF-16 has no more bytes. -/
lemma size_le_of_units16_le {a b a' b' : Text} (h : a ++ b = a' ++ b')
    (hunits : units16 a ≤ units16 a') : size a ≤ size a' := by
  by_contra hlt
  obtain ⟨u, rfl, -⟩ := exists_append_of_size_le h.symm (by omega)
  cases u with
  | nil => simp at hlt
  | cons c u =>
    have hpos : 0 < units16 (c :: u) := by
      rw [units16_cons]
      split <;> omega
    rw [units16_append] at hunits
    omega

lemma isBoundary_eq_true_iff {t : Text} {n : Nat} :
    isBoundary t n = true ↔ ∃ a b, t = a ++ b ∧ size a = n := by
  rw [isBoundary, Option.isSome_iff_exists]
  constructor
  · rintro ⟨b, hb⟩
    obtain ⟨a, ht, ha⟩ := exists_append_of_drop? hb
    exact ⟨a, b, ht, ha⟩
  · rintro ⟨a, b, rfl, rfl⟩
    exact ⟨b, drop?_size_append a b⟩

lemma slice?_eq_some_iff {t u : Text} {start stop : Nat} :
    slice? t start stop = some u ↔
      ∃ before after, t = before ++ (u ++ after) ∧ size before = start ∧ start + size u = stop := by
  constructor
  · intro h
    rw [slice?] at h
    split at h
    · rename_i hle
      obtain ⟨⟨v, after⟩, hv, rfl⟩ := Option.map_eq_some_iff.1 h
      obtain ⟨rest, hdrop, hsplit⟩ := Option.bind_eq_some_iff.1 hv
      obtain ⟨before, rfl, hbefore⟩ := exists_append_of_drop? hdrop
      obtain ⟨rfl, hsize⟩ := splitAt?_eq_some_iff.1 hsplit
      refine ⟨before, after, rfl, hbefore, ?_⟩
      simp only
      omega
    · cases h
  · rintro ⟨before, after, rfl, rfl, rfl⟩
    have hsplit : splitAt? (u ++ after) (size u) = some (u, after) := splitAt?_eq_some_iff.2 ⟨rfl, rfl⟩
    have hdiff : size before + size u - size before = size u := by omega
    rw [slice?, if_pos (by omega), drop?_size_append, hdiff]
    simp [hsplit]

lemma units16_le_size (t : Text) : units16 t ≤ size t := by
  induction t with
  | nil => exact Nat.le_refl _
  | cons c t ih =>
    have hpos := c.utf8Size_pos
    have hone : c.utf8Size = 1 → c.val ≤ 0xFFFF := fun h =>
      UInt32.le_trans (Char.utf8Size_eq_one_iff.1 h) (by decide)
    rw [units16_cons, size_cons]
    split
    · omega
    · have hne : c.utf8Size ≠ 1 := fun h => absurd (hone h) ‹_›
      omega

lemma isBlank_of_mem_replicate {n : Nat} : ∀ c ∈ List.replicate n ' ', isBlank c = true :=
  fun _ hc => List.eq_of_mem_replicate hc ▸ rfl

lemma size_replicate_blank (n : Nat) : size (List.replicate n ' ') = n := by
  rw [size_of_blanks isBlank_of_mem_replicate, List.length_replicate]

lemma units16_replicate_blank (n : Nat) : units16 (List.replicate n ' ') = n := by
  rw [units16_of_blanks isBlank_of_mem_replicate, List.length_replicate]

lemma count_le_size (c : Char) (t : Text) : t.count c ≤ size t := by
  induction t with
  | nil => exact Nat.le_refl _
  | cons d t ih =>
    have hpos := d.utf8Size_pos
    rw [List.count_cons, size_cons]
    split <;> omega

lemma slice?_append (before u after : Text) :
    slice? (before ++ (u ++ after)) (size before) (size before + size u) = some u :=
  slice?_eq_some_iff.2 ⟨before, after, rfl, rfl, rfl⟩

end KeywordCompletion.Text
