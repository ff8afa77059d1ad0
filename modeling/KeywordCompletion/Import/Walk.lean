import KeywordCompletion.Import.Basic
import KeywordCompletion.Import.Candidate
import KeywordCompletion.Keyword.Library
import KeywordCompletion.SourceCache.Load

/-!
# Walks along imports

A walk visits a file, then what its imports lead to, each import in turn before the next one, and no
file or library twice. Files are loaded through a cache, so that an open buffer stands for its file.
What is still to be visited is a stack; a file counts as seen once it is taken from there, whether or
not it can be loaded.
-/

namespace KeywordCompletion

/-- What a walk is to visit: a file, or a library by its name. -/
inductive ImportTarget where
  | file (id : FileId)
  | library (name : Text)
  deriving DecidableEq, Repr

/-- What a walk has visited: a file with its source, or a library by its name. -/
inductive Visit where
  | file (id : FileId) (source : Source)
  | library (name : Text)
  deriving DecidableEq

/-- Where imports are looked for, and whether a walk ends at the library that needs no import. -/
structure ImportScope where
  roots : List Path
  implicitBuiltIn : Bool

/-- The state of a walk: the cache, what is to be visited with the next one first, and what has been
seen. Names of libraries are seen in lower case. -/
structure ImportWalk where
  cache : SourceCache
  pending : List ImportTarget
  seenFiles : List FileId
  seenLibraries : List Text

namespace ImportWalk

def start (c : SourceCache) (f : FileId) : ImportWalk := ⟨c, [.file f], [], []⟩

/-- Whether a path leads to a file that can be visited: a file of the cache or one on disk. -/
def isAvailable (e : Environment) (c : SourceCache) (p : Path) : Bool :=
  c.contains (FileId.ofPath e.disk p) || e.disk.isFile p

/-- The file that an import of a resource leads to: the first of its candidates that is available. -/
def resolve? (e : Environment) (roots : List Path) (c : SourceCache) (importer : FileId)
    (t : Text) : Option FileId :=
  let importer := importer.toPath?.getD ⟨[]⟩
  ((Import.candidates e roots importer t).find? (isAvailable e c)).map (FileId.ofPath e.disk)

def target? (e : Environment) (roots : List Path) (c : SourceCache) (importer : FileId) :
    Import → Option ImportTarget
  | .library name => some (.library name)
  | .resource t => (resolve? e roots c importer t).map .file

/-- What the imports of a source lead to, in their order. -/
def targets (e : Environment) (roots : List Path) (c : SourceCache) (importer : FileId)
    (source : Source) : List ImportTarget :=
  (Import.ofSource source).filterMap (target? e roots c importer)

/-- Visits a library, unless it was seen. -/
def visitLibrary (w : ImportWalk) (name : Text) : Option Visit × ImportWalk :=
  let key := Text.lowercase name
  if w.seenLibraries.contains key then (none, w)
  else (some (.library name), { w with seenLibraries := key :: w.seenLibraries })

/-- Visits a file, unless it was seen or cannot be loaded, and puts what its imports lead to before
everything else that is to be visited. -/
def visitFile (e : Environment) (roots : List Path) (w : ImportWalk) (f : FileId) :
    Option Visit × ImportWalk :=
  if f ∈ w.seenFiles then (none, w)
  else
    let w := { w with seenFiles := f :: w.seenFiles }
    match w.cache.load e.disk f with
    | (cache, .error _) => (none, { w with cache })
    | (cache, .ok source) =>
      let pending := targets e roots cache f source ++ w.pending
      (some (.file f source), { w with cache, pending })

/-- Takes one target from what is to be visited, and visits it. -/
def step (e : Environment) (roots : List Path) (w : ImportWalk) : Option Visit × ImportWalk :=
  match w.pending with
  | [] => (none, w)
  | .library name :: pending => visitLibrary { w with pending } name
  | .file f :: pending => visitFile e roots { w with pending } f

/-- The visits from a state on up to the first file, in at most so many steps; what follows the visit
to a file is left to `onFile`. -/
def runWith (e : Environment) (roots : List Path) (onFile : ImportWalk → List Visit × ImportWalk) :
    Nat → ImportWalk → List Visit × ImportWalk
  | 0, w => ([], w)
  | count + 1, w =>
    match step e roots w with
    | (none, w) => runWith e roots onFile count w
    | (some (.library name), w) =>
      let (visits, last) := runWith e roots onFile count w
      (.library name :: visits, last)
    | (some (.file f source), w) =>
      let (visits, last) := onFile w
      (.file f source :: visits, last)

/-- The visits from a state on, and the state after them, when fewer than `files` files are visited.
Between two files every step takes one target from what is to be visited and adds none. -/
def run (e : Environment) (roots : List Path) : Nat → ImportWalk → List Visit × ImportWalk
  | 0, w => ([], w)
  | files + 1, w => runWith e roots (run e roots files) w.pending.length w

/-- A bound on the number of files that a walk visits: the first file, the files of the cache, and
what is on disk; and one more for what is to be visited after the last file. -/
def fileBound (e : Environment) (c : SourceCache) : Nat := 2 + c.size + e.disk.entries.length

/-- The visit to the library that needs no import, unless it was seen. -/
def builtInVisit (w : ImportWalk) (implicitBuiltIn : Bool) : List Visit :=
  if implicitBuiltIn then (visitLibrary w Library.builtInName.toList).1.toList else []

/-- The visits of a walk from a file, and the cache after it. The library that needs no import comes
last, unless it is imported. -/
def visits (e : Environment) (scope : ImportScope) (c : SourceCache) (f : FileId) :
    List Visit × SourceCache :=
  let (visits, last) := run e scope.roots (fileBound e c) (start c f)
  (visits ++ builtInVisit last scope.implicitBuiltIn, last.cache)

end ImportWalk

end KeywordCompletion
