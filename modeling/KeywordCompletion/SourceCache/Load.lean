import KeywordCompletion.SourceCache.Basic

/-!
# Loading through a cache

`SourceCache.load` answers with the buffer of a file, or with its snapshot if the file on disk still
bears its stamp, and else reads the file. The steps of a load are kept apart: `loadPlan` decides from
the entry and from a look at the disk what is left to do.
-/

namespace KeywordCompletion

/-- Why a file that no editor has open cannot be read. -/
inductive LoadError where
  | notOnDisk (file : FileId)
  | tooLarge (file : FileId) (size limit : Nat)
  | unreadable (file : FileId) (reason : DiskError)
  deriving DecidableEq, Repr

namespace LoadError

def message : LoadError → Text
  | notOnDisk file => file.text ++ " is not a file on disk".toList
  | tooLarge file size limit =>
    file.text ++ " is ".toList ++ Nat.toDigits 10 size ++ " bytes, above the ".toList ++
      Nat.toDigits 10 limit ++ " byte limit".toList
  | unreadable file reason =>
    "failed to read ".toList ++ file.text ++ ": ".toList ++ reason.message.toList

end LoadError

def DiskNode.stamp : DiskNode → FileStamp
  | file content modified => Disk.stampOf content modified
  | _ => ⟨0, 0⟩

/-- What is left to do for a load. -/
inductive LoadPlan where
  /-- Answer with what is in the cache. -/
  | answer (source : Source)
  /-- Answer with an error; the cache stays. -/
  | refuse (error : LoadError)
  /-- Answer with an error and forget the snapshot. -/
  | forget (error : LoadError)
  /-- Read the file and keep it with this stamp. -/
  | read (path : Path) (stamp : FileStamp)

namespace SourceCache

/-- What is left to do for a load, when the cache has the given entry for the file. -/
def loadPlan (cached : Option CacheEntry) (limit : Nat) (d : Disk) (f : FileId) : LoadPlan :=
  match cached with
  | some ⟨buffer, none⟩ => .answer buffer
  | _ =>
    match f.toPath? with
    | none => .refuse (.notOnDisk f)
    | some path =>
      match d.stat path with
      | .error reason => .forget (.unreadable f reason)
      | .ok (.file content modified) =>
        let stamp := Disk.stampOf content modified
        match cached.filter fun entry => entry.stamp = some stamp with
        | some entry => .answer entry.source
        | none =>
          if limit < stamp.size then .forget (.tooLarge f stamp.size limit)
          else .read path stamp
      | .ok _ => .forget (.notOnDisk f)

/-- The source of a file, from the cache or read from disk, and the cache after that. -/
def load (c : SourceCache) (d : Disk) (f : FileId) : SourceCache × Except LoadError Source :=
  match loadPlan (c.lookup? f) c.limit d f with
  | .answer source => (c, .ok source)
  | .refuse error => (c, .error error)
  | .forget error => (c.forget f, .error error)
  | .read path stamp =>
    match d.readText path with
    | .error reason => (c, .error (.unreadable f reason))
    | .ok t =>
      let (c, source) := c.commit f (Source.ofText t) stamp
      (c, .ok source)

def stamp? (d : Disk) (f : FileId) : Option FileStamp :=
  f.toPath?.bind fun path =>
    match d.stat path with
    | .ok node => some node.stamp
    | .error _ => none

/-- The cache with a text that was read from disk, for a file that has no entry. -/
def insertIfAbsent (c : SourceCache) (d : Disk) (f : FileId) (t : Text) : SourceCache :=
  if c.contains f then c else c.putIfVacant f ⟨Source.ofText t, stamp? d f⟩

end SourceCache

end KeywordCompletion
