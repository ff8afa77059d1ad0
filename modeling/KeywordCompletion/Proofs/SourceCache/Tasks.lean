import KeywordCompletion.Proofs.SourceCache.Coherence
import KeywordCompletion.Workspace.Indexing

/-!
# Operations in steps

Loads and insertions take several steps each. Every step is one operation on an entry of the cache or
one look at the disk, and anything may happen between two of them: other tasks take steps, editors
change their buffers, the disk changes. A task that nothing comes between does what the operation does
in one piece: `run_loading`, `run_inserting`, `run_indexing`.
-/

namespace KeywordCompletion

deriving instance DecidableEq for Disk

/-- Where the load of a file has got to. -/
inductive LoadStage where
  | pending
  /-- The cache had no buffer, but perhaps a snapshot. -/
  | looked (cached : Option CacheEntry)
  /-- The file was looked for on a disk. -/
  | asked (cached : Option CacheEntry) (seen : Disk)
  | forgetting (error : LoadError)
  | reading (path : Path) (stamp : FileStamp)
  | committing (source : Source) (stamp : FileStamp)
  | answered (answer : Except LoadError Source)
  deriving DecidableEq

/-- Where the insertion of a text for a file has got to. -/
inductive InsertStage where
  | pending
  /-- The cache had no entry for the file. -/
  | vacant
  /-- The file was asked for its stamp. -/
  | stamped (stamp : Option FileStamp)
  | finished
  deriving DecidableEq

/-- An operation on a cache that takes several steps, and how far it has got. -/
inductive Task where
  | load (f : FileId) (stage : LoadStage)
  | insert (f : FileId) (t : Text) (stage : InsertStage)
  /-- The file at a path is to be read, and inserted then. -/
  | index (p : Path)
  /-- The text of the file at a path was read; the identity of the file is to be found out. -/
  | name (p : Path) (t : Text)
  /-- A file that was to be indexed cannot be read. -/
  | unreadable
  deriving DecidableEq

/-- The next step of a load. What is to be done about a file that was looked for is decided by the
limit that holds at the time of the decision. -/
def LoadStage.step (f : FileId) (c : SourceCache) (d : Disk) : LoadStage → SourceCache × LoadStage
  | pending =>
    match c.buffer? f with
    | some buffer => (c, answered (.ok buffer))
    | none => (c, looked (c.lookup? f))
  | looked cached => (c, asked cached d)
  | asked cached seen =>
    match SourceCache.loadPlan cached c.limit seen f with
    | .answer source => (c, answered (.ok source))
    | .refuse error => (c, answered (.error error))
    | .forget error => (c, forgetting error)
    | .read path stamp => (c, reading path stamp)
  | forgetting error => (c.forget f, answered (.error error))
  | reading path stamp =>
    match d.readText path with
    | .error reason => (c, answered (.error (.unreadable f reason)))
    | .ok t => (c, committing (Source.ofText t) stamp)
  | committing source stamp =>
    let (c, source) := c.commit f source stamp
    (c, answered (.ok source))
  | answered answer => (c, answered answer)

/-- The next step of an insertion. -/
def InsertStage.step (f : FileId) (t : Text) (c : SourceCache) (d : Disk) :
    InsertStage → SourceCache × InsertStage
  | pending => (c, if c.contains f then finished else vacant)
  | vacant => (c, stamped (SourceCache.stamp? d f))
  | stamped stamp => (c.putIfVacant f ⟨Source.ofText t, stamp⟩, finished)
  | finished => (c, finished)

/-- The next step of a task. -/
def Task.step (c : SourceCache) (d : Disk) : Task → SourceCache × Task
  | load f stage =>
    let (c, stage) := stage.step f c d
    (c, load f stage)
  | insert f t stage =>
    let (c, stage) := stage.step f t c d
    (c, insert f t stage)
  | index p =>
    match d.readText p with
    | .error _ => (c, unreadable)
    | .ok t => (c, name p t)
  | name p t => (c, insert (FileId.ofPath d p) t .pending)
  | unreadable => (c, unreadable)

/-- A cache with the disk under it and the tasks at work on it. -/
structure SharedCache extends CachedDisk where
  tasks : List Task

/-- What happens to a shared cache. -/
inductive SharedEvent where
  /-- An operation is done in one piece, or the disk changes. -/
  | whole (event : CacheEvent)
  | loading (f : FileId)
  | inserting (f : FileId) (t : Text)
  | indexing (p : Path)
  /-- The task with an index takes its next step. -/
  | advanced (i : Nat)

namespace SharedCache

/-- The shared cache with one more task. -/
def begin (s : SharedCache) (task : Task) : SharedCache := { s with tasks := s.tasks ++ [task] }

/-- The shared cache after the task with an index took a step. -/
def advance (s : SharedCache) (i : Nat) : SharedCache :=
  match s.tasks[i]? with
  | some task =>
    let (cache, task) := task.step s.cache s.disk
    { s with cache, tasks := s.tasks.set i task }
  | none => s

def after (s : SharedCache) : SharedEvent → SharedCache
  | .whole event => { s with toCachedDisk := s.toCachedDisk.after event }
  | .loading f => s.begin (.load f .pending)
  | .inserting f t => s.begin (.insert f t .pending)
  | .indexing p => s.begin (.index p)
  | .advanced i => s.advance i

def run (s : SharedCache) (events : List SharedEvent) : SharedCache := events.foldl after s

/-- An empty cache on which no task is at work. -/
def initial (d : Disk) : SharedCache := ⟨⟨.empty, d⟩, []⟩

lemma run_cons (s : SharedCache) (event : SharedEvent) (more : List SharedEvent) :
    s.run (event :: more) = (s.after event).run more := rfl

lemma advance_of_getElem? {s : SharedCache} {i : Nat} {task : Task} (h : s.tasks[i]? = some task) :
    s.advance i =
      ⟨⟨(task.step s.cache s.disk).1, s.disk⟩, s.tasks.set i (task.step s.cache s.disk).2⟩ := by
  rw [advance, h]

/-- The cache and the task after so many steps of the task alone. -/
def alone (d : Disk) : Nat → SourceCache × Task → SourceCache × Task
  | 0, state => state
  | n + 1, (c, task) => alone d n (task.step c d)

lemma run_advanced (s : SharedCache) (task : Task) (n : Nat) :
    (s.begin task).run (List.replicate n (.advanced s.tasks.length)) =
      let (cache, task) := alone s.disk n (s.cache, task)
      ⟨⟨cache, s.disk⟩, s.tasks ++ [task]⟩ := by
  induction n generalizing s task with
  | zero => rfl
  | succ n ih =>
    have hlast : (s.begin task).tasks[s.tasks.length]? = some task := by simp [begin]
    have hnext : (s.begin task).advance s.tasks.length =
        begin { s with cache := (task.step s.cache s.disk).1 } (task.step s.cache s.disk).2 := by
      rw [advance_of_getElem? hlast]
      simp [begin]
    rw [List.replicate_succ, run_cons, after, hnext]
    exact ih { s with cache := (task.step s.cache s.disk).1 } _

lemma alone_load (c : SourceCache) (d : Disk) (f : FileId) :
    alone d 5 (c, .load f .pending) =
      ((c.load d f).1, .load f (.answered (c.load d f).2)) := by
  cases hb : c.buffer? f with
  | some buffer =>
    simp [alone, Task.step, LoadStage.step, hb, SourceCache.load,
      SourceCache.buffer?_eq_some_iff.1 hb, SourceCache.loadPlan]
  | none =>
    simp only [alone, Task.step, LoadStage.step, hb, SourceCache.load]
    cases SourceCache.loadPlan (c.lookup? f) c.limit d f with
    | answer _ | refuse _ | forget _ => rfl
    | read path stamp =>
      dsimp only [LoadStage.step]
      cases d.readText path <;> rfl

lemma alone_insert (c : SourceCache) (d : Disk) (f : FileId) (t : Text) :
    alone d 3 (c, .insert f t .pending) = (c.insertIfAbsent d f t, .insert f t .finished) := by
  cases hc : c.contains f <;>
    simp [alone, Task.step, InsertStage.step, SourceCache.insertIfAbsent, hc]

/-- A load that nothing comes between is the load in one piece. -/
theorem run_loading (s : SharedCache) (f : FileId) :
    s.run (.loading f :: List.replicate 5 (.advanced s.tasks.length)) =
      ⟨s.toCachedDisk.after (.loaded f),
        s.tasks ++ [.load f (.answered (s.cache.load s.disk f).2)]⟩ := by
  rw [run_cons, after, run_advanced, alone_load]
  rfl

/-- An insertion that nothing comes between is the insertion in one piece. -/
theorem run_inserting (s : SharedCache) (f : FileId) (t : Text) :
    s.run (.inserting f t :: List.replicate 3 (.advanced s.tasks.length)) =
      ⟨s.toCachedDisk.after (.inserted f t), s.tasks ++ [.insert f t .finished]⟩ := by
  rw [run_cons, after, run_advanced, alone_insert]
  rfl

/-- A file that is indexed while nothing comes between is indexed in one piece. -/
theorem run_indexing (s : SharedCache) (p : Path) :
    (s.run (.indexing p :: List.replicate 5 (.advanced s.tasks.length))).toCachedDisk =
      ⟨Indexing.indexFile s.disk s.cache p, s.disk⟩ := by
  rw [run_cons, after, run_advanced, Indexing.indexFile, alone, Task.step]
  cases s.disk.readText p with
  | error reason => rfl
  | ok t =>
    dsimp only
    rw [alone, Task.step, alone_insert]

end SharedCache

end KeywordCompletion
