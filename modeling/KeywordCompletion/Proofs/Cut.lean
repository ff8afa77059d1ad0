import Mathlib.Tactic.Common
import KeywordCompletion.Cut

/-!
# Cutting a list that is put together

A list that is put together with cuts between its parts is cut into these parts.
-/

namespace KeywordCompletion

variable {α : Type} {isCut : α → Bool}

lemma cut_of_forall {items : List α} (h : ∀ item ∈ items, isCut item = false) :
    cut isCut items = [items] := by
  have hcut := cut_append_of_forall isCut h [] [] [] rfl
  simpa using hcut

lemma cut_cons_of_not {item : α} (h : isCut item = false) {items part : List α}
    {more : List (List α)} (e : cut isCut items = part :: more) :
    cut isCut (item :: items) = (item :: part) :: more := by
  have hone : ∀ x ∈ [item], isCut x = false := by simpa using h
  simpa using cut_append_of_forall isCut hone items part more e

/-- What stands before a cut and what stands after it are cut separately. -/
theorem cut_append_cons {item : α} (h : isCut item = true) (before after : List α) :
    cut isCut (before ++ item :: after) = cut isCut before ++ cut isCut after := by
  induction before with
  | nil => rw [List.nil_append, cut_cons_of_isCut isCut h, cut_nil, List.singleton_append]
  | cons x before ih =>
    cases hx : isCut x with
    | true =>
      rw [List.cons_append, cut_cons_of_isCut isCut hx, ih, cut_cons_of_isCut isCut hx,
        List.cons_append]
    | false =>
      obtain ⟨part, more, hb⟩ := List.exists_cons_of_ne_nil (cut_ne_nil isCut before)
      have hwhole : cut isCut (before ++ item :: after) = part :: (more ++ cut isCut after) := by
        rw [ih, hb, List.cons_append]
      rw [List.cons_append, cut_cons_of_not hx hwhole, cut_cons_of_not hx hb, List.cons_append]

lemma length_cut (items : List α) : (cut isCut items).length = items.countP isCut + 1 := by
  induction items with
  | nil => rfl
  | cons item items ih =>
    cases h : isCut item with
    | true => rw [cut_cons_of_isCut isCut h, List.length_cons, ih, List.countP_cons_of_pos h]
    | false =>
      obtain ⟨part, more, he⟩ := List.exists_cons_of_ne_nil (cut_ne_nil isCut items)
      rw [he, List.length_cons] at ih
      rw [cut_cons_of_not h he, List.length_cons, ih, List.countP_cons_of_neg (by simp [h])]

lemma cut_map {β : Type} (f : β → α) (items : List β) :
    cut isCut (items.map f) = (cut (isCut ∘ f) items).map (List.map f) := by
  induction items with
  | nil => rfl
  | cons item items ih =>
    cases h : isCut (f item) with
    | true =>
      rw [List.map_cons, cut_cons_of_isCut isCut h, cut_cons_of_isCut (isCut ∘ f) h, ih]
      rfl
    | false =>
      have h' : (isCut ∘ f) item = false := h
      obtain ⟨part, more, he⟩ := List.exists_cons_of_ne_nil (cut_ne_nil (isCut ∘ f) items)
      rw [he, List.map_cons] at ih
      rw [List.map_cons, cut_cons_of_not h ih, cut_cons_of_not h' he]
      rfl

lemma not_isCut_of_mem_cut {items part : List α} (h : part ∈ cut isCut items) :
    ∀ x ∈ part, isCut x = false := by
  induction items generalizing part with
  | nil =>
    obtain rfl : part = [] := by simpa using h
    simp
  | cons item items ih =>
    cases hi : isCut item with
    | true =>
      rw [cut_cons_of_isCut isCut hi] at h
      rcases List.mem_cons.1 h with rfl | h
      · simp
      · exact ih h
    | false =>
      obtain ⟨first, more, he⟩ := List.exists_cons_of_ne_nil (cut_ne_nil isCut items)
      rw [cut_cons_of_not hi he] at h
      rw [he] at ih
      rcases List.mem_cons.1 h with rfl | h
      · rw [List.forall_mem_cons]
        exact ⟨hi, ih List.mem_cons_self⟩
      · exact ih (List.mem_cons_of_mem _ h)

/-- The stretches of a list, with the elements it is cut at between them, make up the list. -/
lemma intercalate_cut {item : α} (h : ∀ x, isCut x = true → x = item) (items : List α) :
    [item].intercalate (cut isCut items) = items := by
  induction items with
  | nil => rfl
  | cons x items ih =>
    obtain ⟨first, more, he⟩ := List.exists_cons_of_ne_nil (cut_ne_nil isCut items)
    rw [he] at ih
    cases hx : isCut x with
    | true =>
      rw [cut_cons_of_isCut isCut hx, he, List.intercalate_cons_cons, ih, h x hx]
      rfl
    | false =>
      rw [cut_cons_of_not hx he]
      cases more with
      | nil =>
        rw [List.intercalate_singleton] at ih ⊢
        rw [ih]
      | cons next more =>
        rw [List.intercalate_cons_cons] at ih ⊢
        rw [List.cons_append, List.cons_append, ih]

lemma cut_intercalate {item : α} (h : isCut item = true) {parts : List (List α)}
    (hne : parts ≠ []) (hparts : ∀ part ∈ parts, ∀ x ∈ part, isCut x = false) :
    cut isCut ([item].intercalate parts) = parts := by
  induction parts with
  | nil => exact absurd rfl hne
  | cons part parts ih =>
    have hpart := cut_of_forall (hparts part List.mem_cons_self)
    cases parts with
    | nil => simpa using hpart
    | cons next more =>
      have hmore := ih (by simp) fun p hp => hparts p (List.mem_cons_of_mem _ hp)
      rw [List.intercalate_cons_cons, List.append_assoc, List.singleton_append, cut_append_cons h,
        hpart, hmore, List.singleton_append]

lemma intercalate_concat (item : α) {parts : List (List α)} (hne : parts ≠ []) (last : List α) :
    [item].intercalate (parts ++ [last]) = [item].intercalate parts ++ item :: last := by
  induction parts with
  | nil => exact absurd rfl hne
  | cons part parts ih =>
    cases parts with
    | nil => simp
    | cons next more =>
      have hmore := ih (by simp)
      rw [List.cons_append, List.cons_append, List.intercalate_cons_cons, ← List.cons_append, hmore,
        List.intercalate_cons_cons]
      simp only [List.append_assoc]

lemma mem_intercalate {item x : α} {parts : List (List α)} (h : x ∈ [item].intercalate parts) :
    x = item ∨ ∃ part ∈ parts, x ∈ part := by
  induction parts with
  | nil => simp at h
  | cons part parts ih =>
    cases parts with
    | nil => exact Or.inr ⟨part, by simp, by simpa using h⟩
    | cons next more =>
      rw [List.intercalate_cons_cons, List.append_assoc, List.mem_append] at h
      rcases h with hx | hx
      · exact Or.inr ⟨part, List.mem_cons_self, hx⟩
      · rcases List.mem_cons.1 hx with rfl | hx
        · exact Or.inl rfl
        · refine (ih hx).imp_right ?_
          rintro ⟨p, hp, hxp⟩
          exact ⟨p, List.mem_cons_of_mem _ hp, hxp⟩

end KeywordCompletion
