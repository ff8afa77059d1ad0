import KeywordCompletion.Environment
import KeywordCompletion.Import.Reference

/-!
# Candidates for an import

The paths at which the file of an import is looked for: beside the file that imports it, then
below each search root.
-/

namespace KeywordCompletion.Import

/-- The value of a reference in a file in the directory `owner`, where `root` is the first search
root. -/
def referenceValue? (e : Environment) (owner root : Option Path) : PathReference → Option Text
  | .environment name => e.value? name
  | .directory name =>
    if name = ['/'] then some ['/']
    else
      let key := PathReference.directoryKey name
      let directory :=
        if key = "curdir".toList then owner
        else if key = "execdir".toList then root
        else if key = "tempdir".toList then some e.temporaryDirectory
        else none
      directory.map Path.display

def expand (e : Environment) (owner root : Option Path) (t : Text) : Text :=
  (PathPiece.split t).flatMap (PathPiece.expand (referenceValue? e owner root))

/-- The paths at which the file of an import may be, the best one first. -/
def candidates (e : Environment) (roots : List Path) (importer : Path) (t : Text) : List Path :=
  let owner := importer.parent?
  let target := Path.ofText (expand e owner roots.head? t)
  if target.isAbsolute then [target.normalized e.disk]
  else
    let directories := owner.toList ++ roots
    (directories.map fun directory => (directory.join target).normalized e.disk).eraseDups

end KeywordCompletion.Import
