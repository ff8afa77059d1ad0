import KeywordCompletion.Text.Basic

/-!
# Similar words

The measure of Jaro: how many characters of two words match at about the same place, and how many of
those stand in another order.
-/

namespace KeywordCompletion.Text

/-- How far apart characters may stand that match, for the lengths of two words. -/
def matchWindow (m n : Nat) : Nat := max m n / 2 - 1

/-- The places in `b` at which the characters of `a` match, where `i` is the place of the first
character of `a` and `taken` are the places that match already. -/
def matchedPlaces (b : Text) (window : Nat) (i : Nat) (taken : List Nat) : Text → List (Char × Nat)
  | [] => []
  | c :: a =>
    let fits := fun (d, j) => d == c && i ≤ j + window && j ≤ i + window && !taken.contains j
    match b.zipIdx.find? fits with
    | some (_, j) => (c, j) :: matchedPlaces b window (i + 1) (j :: taken) a
    | none => matchedPlaces b window (i + 1) taken a

/-- The similarity of two words, from 0 to 1. -/
def similarity (a b : Text) : Rat :=
  let pairs := matchedPlaces b (matchWindow a.length b.length) 0 [] a
  let inOrder := (pairs.mergeSort fun p q => p.2 ≤ q.2).map Prod.fst
  let swapped := ((pairs.map Prod.fst).zip inOrder).countP fun (c, d) => c != d
  let matched : Rat := pairs.length
  if pairs.isEmpty then (if a.isEmpty && b.isEmpty then 1 else 0)
  else
    (matched / a.length + matched / b.length + (matched - (swapped / 2 : Nat)) / matched) / 3

end KeywordCompletion.Text
