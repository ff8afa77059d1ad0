import KeywordCompletion.Keyword.Filter
import KeywordCompletion.Text.Blank

/-!
# Settings

What a user can set, in three sections: completion, indexing of the workspace, and the messages
that are sent to the editor's log. `IndexingSettings.normalized` puts the section on indexing into
the form in which the rest of the library expects it.
-/

namespace KeywordCompletion

/-- Settings of completion. -/
structure CompletionSettings where
  enabled : Bool
  mode : MatchMode
  /-- Whether the keywords of `BuiltIn` are offered without an import. -/
  implicitBuiltIn : Bool
  deriving DecidableEq, Repr

/-- Settings of the indexing of the workspace. -/
structure IndexingSettings where
  enabled : Bool
  /-- The size of the largest file that is read, in units of 1024 bytes. -/
  maxFileSizeKb : Nat
  excludedPaths : List Text
  /-- The extensions of the files that are read. -/
  extensions : List Text
  deriving DecidableEq, Repr

/-- How much is sent to the editor's log, from least to most. -/
inductive LogLevel where
  | error
  | warn
  | info
  | debug
  | trace
  deriving DecidableEq, Repr

/-- The types of the messages in an editor's log. -/
inductive MessageType where
  | error
  | warning
  | info
  | log
  deriving DecidableEq, Repr

/-- The settings of a workspace. -/
structure Settings where
  completion : CompletionSettings
  indexing : IndexingSettings
  logLevel : LogLevel
  deriving DecidableEq, Repr

namespace MessageType

def code : MessageType → Nat
  | error => 1
  | warning => 2
  | info => 3
  | log => 4

end MessageType

namespace LogLevel

/-- The place of a level in their order. -/
def rank : LogLevel → Nat
  | error => 0
  | warn => 1
  | info => 2
  | debug => 3
  | trace => 4

/-- The least level at which messages of a type are sent. -/
def needed : MessageType → LogLevel
  | .error => error
  | .warning => warn
  | .info => info
  | .log => debug

def forwards (level : LogLevel) (type : MessageType) : Bool := (needed type).rank ≤ level.rank

end LogLevel

namespace IndexingSettings

/-- The bounds of the size of the largest file that is read. -/
def minFileSizeKb : Nat := 16

/-- The greatest size that can be set. -/
def maxFileSizeKbBound : Nat := 64 * 1024

/-- An excluded path as it is kept. -/
def normalPath (t : Text) : Text := Text.trim Text.isWhiteSpace t

/-- An extension as it is kept: without white space around it and full stops before it, in lower
case. -/
def normalExtension (t : Text) : Text :=
  Text.lowercase ((Text.trim Text.isWhiteSpace t).dropWhile (· == '.'))

/-- The normal forms of texts, those that are not empty, each once. -/
def normalTexts (normal : Text → Text) (texts : List Text) : List Text :=
  ((texts.map normal).filter (!·.isEmpty)).eraseDups

def normalized (s : IndexingSettings) : IndexingSettings :=
  { s with
    maxFileSizeKb := min (max s.maxFileSizeKb minFileSizeKb) maxFileSizeKbBound
    excludedPaths := normalTexts normalPath s.excludedPaths
    extensions := normalTexts normalExtension s.extensions }

def maxFileSize (s : IndexingSettings) : Nat := s.maxFileSizeKb * 1024

def isIndexed (s : IndexingSettings) (extension : Text) : Bool :=
  s.extensions.any (Text.eqIgnoringAsciiCase · extension)

end IndexingSettings

namespace Settings

def initial : Settings where
  completion := ⟨true, .leading, true⟩
  indexing := ⟨true, 512, [], ["robot".toList, "resource".toList, "txt".toList]⟩
  logLevel := .info

end Settings

end KeywordCompletion
