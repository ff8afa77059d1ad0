/-!
# Cutting lists

`cut` divides a list at every element of a class: a text at its line feeds, a row at its
separators, a path at its slashes.
-/

namespace KeywordCompletion

/-- The stretches before, between and after the elements of a class. There is always one more
stretch than there are cuts. -/
def cut {α : Type} (isCut : α → Bool) (items : List α) : List (List α) :=
  items.foldr (fun item parts =>
    if isCut item then [] :: parts
    else match parts with
      | part :: more => (item :: part) :: more
      | [] => [[item]]) [[]]

section

variable {α : Type} (isCut : α → Bool)

@[simp] theorem cut_nil : cut isCut [] = [[]] := rfl

theorem cut_ne_nil (items : List α) : cut isCut items ≠ [] := by
  cases items with
  | nil => simp
  | cons item items =>
    rw [cut, List.foldr_cons]
    split
    · simp
    · split <;> simp

theorem cut_cons_of_isCut {item : α} (h : isCut item = true) (items : List α) :
    cut isCut (item :: items) = [] :: cut isCut items := by
  rw [cut, List.foldr_cons, if_pos h]
  rfl

/-- Up to the first cut a list is its first stretch. -/
theorem cut_append_of_forall {before : List α} (h : ∀ item ∈ before, isCut item = false)
    (items part : List α) (more : List (List α)) (e : cut isCut items = part :: more) :
    cut isCut (before ++ items) = (before ++ part) :: more := by
  induction before with
  | nil => exact e
  | cons item before ih =>
    have hi := h item List.mem_cons_self
    have e' := ih fun x hx => h x (List.mem_cons_of_mem _ hx)
    rw [List.cons_append, cut, List.foldr_cons, hi]
    change (match cut isCut (before ++ items) with
      | part :: more => (item :: part) :: more
      | [] => [[item]]) = _
    rw [e']
    rfl

end

end KeywordCompletion
