import KeywordCompletion.Text.Lowercase

/-!
# References in import paths

The path of an import may refer to directories and environment variables. `PathPiece.split` cuts a
path into characters and references from left to right, and a value put in for a reference is not
looked at again.
-/

namespace KeywordCompletion

/-- A reference in the path of an import. -/
inductive PathReference where
  /-- A dollar sign and a name in braces. -/
  | directory (name : Text)
  /-- A percent sign and the name of an environment variable in braces. -/
  | environment (name : Text)
  deriving DecidableEq, Repr

namespace PathReference

/-- Whether a name may stand in braces after a percent sign: ASCII letters, digits and underscores
that do not start with a digit. -/
def isIdentifier (name : Text) : Bool :=
  match name with
  | [] => false
  | first :: _ => !first.isDigit && name.all fun c => c.isAlphanum || c == '_'

/-- The reference with which a text starts, if it starts with one. -/
def ofHead? : Text → Option PathReference
  | '$' :: '\x7b' :: t =>
    let name := t.takeWhile (· != '\x7d')
    if name.length < t.length then some (directory name) else none
  | '%' :: '\x7b' :: t =>
    let name := t.takeWhile (· != '\x7d')
    if name.length < t.length && isIdentifier name then some (environment name) else none
  | _ => none

def render : PathReference → Text
  | directory name => ['$', '\x7b'] ++ name ++ ['\x7d']
  | environment name => ['%', '\x7b'] ++ name ++ ['\x7d']

/-- The name of a directory without spaces and underscores, in lower case. -/
def directoryKey (name : Text) : Text :=
  (name.filter fun c => c != ' ' && c != '_').flatMap Text.lowercaseChar

end PathReference

/-- A character of the path of an import that stands for itself, or a reference. -/
inductive PathPiece where
  | literal (c : Char)
  | reference (r : PathReference)
  deriving DecidableEq, Repr

namespace PathPiece

/-- The pieces of a text, where the first `skip` characters belong to a reference already found. -/
def splitAfter : Nat → Text → List PathPiece
  | _, [] => []
  | skip + 1, _ :: t => splitAfter skip t
  | 0, c :: t =>
    match PathReference.ofHead? (c :: t) with
    | some r => reference r :: splitAfter (r.render.length - 1) t
    | none => literal c :: splitAfter 0 t

def split (t : Text) : List PathPiece := splitAfter 0 t

/-- A piece with its value put in. A reference without a value stays as it is written. -/
def expand (value? : PathReference → Option Text) : PathPiece → Text
  | literal c => [c]
  | reference r => (value? r).getD r.render

end PathPiece

end KeywordCompletion
