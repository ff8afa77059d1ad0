/-!
# Spans

A stretch of a text, from one byte offset to another.
-/

namespace KeywordCompletion

/-- A stretch of a text: the byte at which it starts and the byte at which it ends. -/
structure Span where
  start : Nat
  stop : Nat
  deriving DecidableEq, Repr

end KeywordCompletion
