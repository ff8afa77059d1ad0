import KeywordCompletion.Source

/-!
# Imports

A setting `Resource` or `Library` imports the keywords of another file or of a library. The case of
the setting does not matter, and colons may follow it.
-/

namespace KeywordCompletion

/-- What a setting imports, as it is written there. -/
inductive Import where
  | resource (text : Text)
  | library (name : Text)
  deriving DecidableEq, Repr

namespace Import

/-- The name of a setting without the colons and white space around it, in lower case. -/
def settingName (cell : Text) : Text :=
  Text.lowercase (Text.trim Text.isWhiteSpace (Text.trimEnd (· == ':') cell))

def ofSetting? (setting value : Text) : Option Import :=
  if value.isEmpty then none
  else if settingName setting = "resource".toList then some (resource value)
  else if settingName setting = "library".toList then some (library value)
  else none

def ofRow? (row : Row) : Option Import :=
  if row.kind = .setting then
    match row.cell? 0, row.cell? 1 with
    | some setting, some value => ofSetting? setting.value value.value
    | _, _ => none
  else none

/-- The imports of a source, in the order of its rows. -/
def ofSource (s : Source) : List Import := s.rows.filterMap ofRow?

end Import

end KeywordCompletion
