import KeywordCompletion.Disk.Tree
import KeywordCompletion.Progress
import KeywordCompletion.SourceCache.Load

/-!
# Indexing of a workspace

Indexing reads the files below the roots of a workspace into the cache. Excluded paths, hidden
directories and some directories that hold no test data are left out. Files that are in the cache
already stay as they are.
-/

namespace KeywordCompletion.Indexing

/-- Names of directories that are left out. -/
def skippedNames : List String :=
  ["target", "node_modules", "__pycache__", "venv", "results", "output"]

/-- The normal paths that are excluded: relative ones are excluded below every root. -/
def excludedPaths (d : Disk) (roots : List Path) (s : IndexingSettings) : List Path :=
  s.excludedPaths.flatMap fun t =>
    let path := Path.ofText t
    if path.isAbsolute then [path.normalized d]
    else roots.map fun root => (root.join path).normalized d

def isVisibleName (name : Bytes) : Bool :=
  match Text.decode? name with
  | some t => t.head? != some '.' && !skippedNames.any fun skipped => skipped.toList == t
  | none => false

/-- Whether an entry of a directory tree stays: the root whatever its name is, other directories if
they are visible, and nothing that is excluded. -/
def keeps (d : Disk) (excluded : List Path) (entry : TreeEntry) : Bool :=
  let isDirectory := d.node? entry.location == some .directory
  !excluded.any (entry.path.normalized d).startsWith &&
    (!isDirectory || entry.depth == 0 || isVisibleName (entry.path.fileName?.getD []))

/-- Whether an entry is a file that is indexed: by its extension, and if it is not too large. -/
def isEligible (d : Disk) (s : IndexingSettings) (entry : TreeEntry) : Bool :=
  match d.node? entry.location with
  | some (.file content _) =>
    ((entry.path.extension?.bind Text.decode?).any s.isIndexed) &&
      content.length ≤ s.maxFileSize
  | _ => false

/-- The normal paths of the files to be indexed, each once, in the order in which they are met. -/
def eligibleFiles (d : Disk) (s : IndexingSettings) (roots : List Path) : List Path :=
  let excluded := excludedPaths d roots s
  let entries := roots.flatMap (d.tree (keeps d excluded))
  ((entries.filter (isEligible d s)).map fun entry => entry.path.normalized d).eraseDups

/-- The cache with the file at a path, if it can be read and has no entry yet. -/
def indexFile (d : Disk) (c : SourceCache) (p : Path) : SourceCache :=
  match d.readText p with
  | .ok t => c.insertIfAbsent d (FileId.ofPath d p) t
  | .error _ => c

def index (d : Disk) (s : IndexingSettings) (roots : List Path) (c : SourceCache) : SourceCache :=
  (eligibleFiles d s roots).foldl (indexFile d) c

/-- What is sent while so many files are indexed by a job with a number. -/
def news (total number : Nat) : List ClientMessage :=
  let (progress, first) := Progress.begin "Indexing".toList total number
  let reports := (List.range total).flatMap fun n => progress.advance (n + 1)
  let message := Nat.toDigits 10 total ++ " file(s) indexed".toList
  first ++ reports ++ (progress.finish (some message)).2

end KeywordCompletion.Indexing
