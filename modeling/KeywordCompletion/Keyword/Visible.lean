import KeywordCompletion.Import.Walk
import KeywordCompletion.Keyword.Definition
import KeywordCompletion.Keyword.Filter

/-!
# Visible keywords

The keywords visible from a file are those that it and its imports define, in the order in which a
walk visits them. Definitions of one name in several places are all visible.
-/

namespace KeywordCompletion

namespace KeywordDefinition

def ofVisit : Visit → List KeywordDefinition
  | .file id source => ofSource id source
  | .library name => ofLibrary name

end KeywordDefinition

/-- The definitions visible from a file whose names pass a filter, and the cache after the walk. -/
def visibleKeywords (e : Environment) (scope : ImportScope) (filter : KeywordFilter)
    (c : SourceCache) (f : FileId) : List KeywordDefinition × SourceCache :=
  let (visits, c) := ImportWalk.visits e scope c f
  ((visits.flatMap KeywordDefinition.ofVisit).filter fun d => filter.accepts d.name, c)

end KeywordCompletion
