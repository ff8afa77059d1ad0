import KeywordCompletion.Text.Lowercase

/-!
# Filters on keyword names

What an author has typed selects the names that start with it or that hold it, both in lower case.
-/

namespace KeywordCompletion

/-- How typed text is compared with the names of keywords. -/
inductive MatchMode where
  /-- The name starts with the typed text. -/
  | leading
  /-- The typed text stands somewhere in the name. -/
  | anywhere
  deriving DecidableEq, Repr

/-- A condition on the names of keywords. A text to compare with is in lower case already. -/
inductive KeywordFilter where
  | all
  | leading (typed : Text)
  | anywhere (typed : Text)
  deriving DecidableEq, Repr

namespace KeywordFilter

def ofTyped (mode : MatchMode) (typed : Text) : KeywordFilter :=
  match mode with
  | .leading => leading (Text.lowercase typed)
  | .anywhere => anywhere (Text.lowercase typed)

def accepts (filter : KeywordFilter) (name : Text) : Bool :=
  match filter with
  | all => true
  | leading typed => typed.isPrefixOf (Text.lowercase name)
  | anywhere typed => Text.contains typed (Text.lowercase name)

end KeywordFilter

end KeywordCompletion
