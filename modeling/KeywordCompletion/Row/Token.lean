import KeywordCompletion.Text.Blank

/-!
# Tokens of a row

A row is read as blanks, escapes and plain text, each as long as it can be. `munch_eq_append` says
that a token and what follows it make up the text, so nothing is lost.
-/

namespace KeywordCompletion

/-- What a stretch of a row is. -/
inductive TokenKind where
  /-- A run of spaces and tabs. -/
  | blank
  /-- A backslash with the character it protects. -/
  | escape
  /-- A run of other characters. -/
  | text
  deriving DecidableEq, Repr

/-- A stretch of a row, with the byte at which it starts. -/
structure Token where
  kind : TokenKind
  text : Text
  start : Nat
  deriving DecidableEq, Repr

namespace Token

def stop (t : Token) : Nat := t.start + Text.size t.text

/-- A character of plain text: no blank and no backslash. -/
def isPlain (c : Char) : Bool := !Text.isBlank c && c != '\\'

/-- The longest token at the head of a text, and what follows it. A line feed is protected by no
backslash. -/
def munch : Text → Option (TokenKind × Text × Text)
  | [] => none
  | c :: rest =>
    if c = '\\' then
      match rest with
      | [] => some (.escape, [c], [])
      | d :: more => if d = '\n' then some (.escape, [c], d :: more) else some (.escape, [c, d], more)
    else if Text.isBlank c then
      some (.blank, c :: rest.takeWhile Text.isBlank, rest.dropWhile Text.isBlank)
    else
      some (.text, c :: rest.takeWhile isPlain, rest.dropWhile isPlain)

/-- A token and what follows it make up the text. -/
theorem munch_eq_append {t lexeme rest : Text} {kind : TokenKind}
    (h : munch t = some (kind, lexeme, rest)) : t = lexeme ++ rest := by
  unfold munch at h
  split at h
  · cases h
  · split at h
    · split at h
      · cases h
        rfl
      · split at h <;> (cases h; rfl)
    · split at h <;> (cases h; simp [List.takeWhile_append_dropWhile])

/-- No token is empty. -/
theorem munch_ne_nil {t lexeme rest : Text} {kind : TokenKind}
    (h : munch t = some (kind, lexeme, rest)) : lexeme ≠ [] := by
  unfold munch at h
  split at h
  · cases h
  · split at h
    · split at h
      · cases h
        simp
      · split at h <;> (cases h; simp)
    · split at h <;> (cases h; simp)

theorem munch_length_lt {t lexeme rest : Text} {kind : TokenKind}
    (h : munch t = some (kind, lexeme, rest)) : rest.length < t.length := by
  have hne := munch_ne_nil h
  rw [munch_eq_append h, List.length_append]
  have := List.length_pos_iff.2 hne
  omega

/-- The tokens of a text that starts at byte `start`. -/
def lexFrom (start : Nat) (t : Text) : List Token :=
  match _h : munch t with
  | none => []
  | some (kind, lexeme, rest) => ⟨kind, lexeme, start⟩ :: lexFrom (start + Text.size lexeme) rest
termination_by t.length
decreasing_by exact munch_length_lt _h

def lex (t : Text) : List Token := lexFrom 0 t

end Token

end KeywordCompletion
