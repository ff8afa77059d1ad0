import KeywordCompletion.Catalog
import KeywordCompletion.FileId
import KeywordCompletion.Source

/-!
# Caches of sources

A cache keeps the sources of files. An entry is a buffer, which an editor put there, or a snapshot,
which was read from disk and bears the stamp of the file at that time. Buffers are never replaced by
snapshots.
-/

namespace KeywordCompletion

/-- A source in a cache. It is a snapshot if it has a stamp, else a buffer. -/
structure CacheEntry where
  source : Source
  stamp : Option FileStamp
  deriving DecidableEq

namespace CacheEntry

def isBuffer (entry : CacheEntry) : Bool := entry.stamp.isNone

end CacheEntry

/-- The sources of files, and the size in bytes up to which files are read. -/
structure SourceCache where
  entries : Catalog FileId CacheEntry
  limit : Nat

namespace SourceCache

/-- The size up to which files are read unless it is set to another one: half a mebibyte. -/
def defaultLimit : Nat := 512 * 1024

def empty : SourceCache := ⟨Catalog.empty, defaultLimit⟩

def lookup? (c : SourceCache) (f : FileId) : Option CacheEntry := c.entries.get? f

/-- The source of a file, as far as the cache knows. -/
def get? (c : SourceCache) (f : FileId) : Option Source := (c.lookup? f).map CacheEntry.source

def contains (c : SourceCache) (f : FileId) : Bool := c.entries.contains f

def size (c : SourceCache) : Nat := c.entries.size

def put (c : SourceCache) (f : FileId) (entry : CacheEntry) : SourceCache :=
  { c with entries := c.entries.insert f entry }

def remove (c : SourceCache) (f : FileId) : SourceCache := { c with entries := c.entries.erase f }

def update (c : SourceCache) (f : FileId) (t : Text) : SourceCache :=
  c.put f ⟨Source.ofText t, none⟩

def setLimit (c : SourceCache) (limit : Nat) : SourceCache := { c with limit }

/-- The cache without the snapshot of a file; a buffer stays. -/
def forget (c : SourceCache) (f : FileId) : SourceCache :=
  match c.lookup? f with
  | some entry => if entry.isBuffer then c else c.remove f
  | none => c

/-- The cache with an entry for a file that has none. -/
def putIfVacant (c : SourceCache) (f : FileId) (entry : CacheEntry) : SourceCache :=
  if c.contains f then c else c.put f entry

/-- The cache with a snapshot of a file, and the source that the cache then has for it: a buffer
that is there stays. -/
def commit (c : SourceCache) (f : FileId) (source : Source) (stamp : FileStamp) :
    SourceCache × Source :=
  match c.lookup? f with
  | some ⟨buffer, none⟩ => (c, buffer)
  | _ => (c.put f ⟨source, some stamp⟩, source)

@[simp] theorem lookup?_put_self (c : SourceCache) (f : FileId) (entry : CacheEntry) :
    (c.put f entry).lookup? f = some entry := by
  simp [put, lookup?]

@[simp] theorem lookup?_put_of_ne (c : SourceCache) {f g : FileId} (h : g ≠ f)
    (entry : CacheEntry) : (c.put f entry).lookup? g = c.lookup? g := by
  simp [put, lookup?, h]

@[simp] theorem lookup?_remove_self (c : SourceCache) (f : FileId) :
    (c.remove f).lookup? f = none := by
  simp [remove, lookup?]

@[simp] theorem lookup?_remove_of_ne (c : SourceCache) {f g : FileId} (h : g ≠ f) :
    (c.remove f).lookup? g = c.lookup? g := by
  simp [remove, lookup?, h]

end SourceCache

end KeywordCompletion
