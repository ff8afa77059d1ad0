import KeywordCompletion.Disk.Basic
import KeywordCompletion.Url.FilePath

/-!
# Identity of files

A source is known by its normal path when it has one, and by its URL otherwise, as a buffer that
was never saved has none.
-/

namespace KeywordCompletion

/-- The identity of a source: a normal path as it is shown, or a URL as it is written. -/
structure FileId where
  text : Text
  deriving DecidableEq, Repr

namespace FileId

def ofPath (d : Disk) (p : Path) : FileId := ⟨(p.normalized d).display⟩

def ofUrl (d : Disk) (u : Url) : FileId :=
  match u.toPath? with
  | some p => ofPath d p
  | none => ⟨u.render⟩

/-- The path that an identity is, unless it is a URL or a relative path. -/
def toPath? (f : FileId) : Option Path :=
  let p := Path.ofText f.text
  if p.isAbsolute then some p else none

def toUrl? (f : FileId) : Option Url :=
  match f.toPath? with
  | some p => p.toUrl?
  | none =>
    match Url.parse f.text with
    | .ok u => some u
    | .error _ => none

def shortName (f : FileId) : Text :=
  (f.text.reverse.takeWhile fun c => c != '/' && c != '\\').reverse

end FileId

end KeywordCompletion
