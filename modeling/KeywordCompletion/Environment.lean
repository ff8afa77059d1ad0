import KeywordCompletion.Disk.Basic

/-!
# Environments

What a file can refer to outside itself: the disk, and the environment variables.
-/

namespace KeywordCompletion

/-- A disk, and the values of environment variables. Of several values for one variable the last
counts. A value that is no text is not among them: such a variable counts as not set. -/
structure Environment where
  disk : Disk
  assignments : List (Text × Text)

namespace Environment

/-- The value of an environment variable, if it is set. -/
def value? (e : Environment) (name : Text) : Option Text :=
  (e.assignments.reverse.find? fun (key, _) => key == name).map Prod.snd

def temporaryDirectory (e : Environment) : Path :=
  Path.ofText ((e.value? "TMPDIR".toList).getD "/tmp".toList)

end Environment

end KeywordCompletion
