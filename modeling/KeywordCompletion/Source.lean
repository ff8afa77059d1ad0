import KeywordCompletion.LineView
import KeywordCompletion.Row.Basic

/-!
# Sources

A source is a text of test data with its rows.
-/

namespace KeywordCompletion

/-- A text together with its rows. -/
structure Source where
  text : Text
  rows : List Row
  rows_eq : rows = Row.parse text

namespace Source

def ofText (t : Text) : Source := ⟨t, Row.parse t, rfl⟩

@[simp] theorem ofText_text (s : Source) : ofText s.text = s := by
  cases s with
  | mk text rows rows_eq => subst rows_eq; rfl

/-- Two sources with the same text are the same. -/
theorem eq_of_text_eq {a b : Source} (h : a.text = b.text) : a = b := by
  rw [← ofText_text a, ← ofText_text b, h]

instance : DecidableEq Source := fun a b =>
  if h : a.text = b.text then isTrue (eq_of_text_eq h)
  else isFalse fun e => h (congrArg Source.text e)

/-- The row with an index, counted from zero. -/
def row? (s : Source) (line : Nat) : Option Row := s.rows[line]?

/-- The row on which an offset lies is the last one that starts at or before it. -/
instance : LineView Source where
  text := Source.text
  lineOfOffset? s offset :=
    if Text.size s.text < offset then none
    else match (s.rows.takeWhile fun row => row.start ≤ offset).length with
      | 0 => none
      | n + 1 => some n
  lineSpan? s line := (s.row? line).map fun row => ⟨row.start, row.stop⟩

end Source

end KeywordCompletion
