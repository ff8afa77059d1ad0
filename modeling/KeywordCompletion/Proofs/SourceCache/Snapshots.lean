import KeywordCompletion.Proofs.SourceCache.Buffers

/-!
# Snapshots while tasks are at work

The text and the stamp of a snapshot are taken at different moments, between which the file may change.
A load asks for the stamp first and reads the file then: a text that was read too late goes with a stamp
that the file does not bear any more. Indexing reads the file first. As long as the file still has the
text that was read when it is asked for its stamp, no load gives anything but what is on disk:
`contentOn?_of_load`. A file that was deleted or rewritten in the meantime is served with its old text:
`load_eq_ok_of_changed`.
-/

namespace KeywordCompletion

namespace FileId

/-- The content of the file that an identity names, if it names one. -/
def contentOn? (f : FileId) (d : Disk) : Option Bytes := (f.fileOn? d).map Prod.fst

/-- The stamp of the file that an identity names, if it names one. -/
def stampOn? (f : FileId) (d : Disk) : Option FileStamp :=
  (f.fileOn? d).map fun (content, modified) => Disk.stampOf content modified

/-- Whether a file that is another one on the next disk is gone there, or bears a stamp that it bore on
none of the disks seen so far. -/
def IsRenewed (f : FileId) (seen : List Disk) (d next : Disk) : Prop :=
  f.fileOn? next = f.fileOn? d ∨ f.fileOn? next = none ∨
    ∀ before ∈ seen, f.stampOn? before ≠ f.stampOn? next

instance (f : FileId) (seen : List Disk) (d next : Disk) : Decidable (f.IsRenewed seen d next) :=
  inferInstanceAs (Decidable (_ ∨ _ ∨ _))

/-- Whether a file gets a new stamp every time it changes from one disk to the next. -/
def IsAlwaysRenewed (f : FileId) (seen : List Disk) (d : Disk) : List Disk → Prop
  | [] => True
  | next :: later => f.IsRenewed seen d next ∧ f.IsAlwaysRenewed (next :: seen) next later

instance (f : FileId) : (seen : List Disk) → (d : Disk) → (later : List Disk) →
    Decidable (f.IsAlwaysRenewed seen d later)
  | _, _, [] => isTrue trivial
  | seen, _, next :: later =>
    have := instDecidableIsAlwaysRenewed f (next :: seen) next later
    inferInstanceAs (Decidable (_ ∧ _))

/-- Whether a text goes with a stamp: the file bore the stamp at some time, and if it bears it now it
has that text now. -/
structure Fits (f : FileId) (seen : List Disk) (d : Disk) (t : Text) (stamp : FileStamp) : Prop where
  seen : ∃ before ∈ seen, f.stampOn? before = some stamp
  current : f.stampOn? d = some stamp → f.contentOn? d = some (Text.encode t)

variable {f : FileId} {seen : List Disk} {d next : Disk} {t : Text} {stamp : FileStamp}

lemma Fits.renewed (h : f.Fits seen d t stamp) (hnext : f.IsRenewed seen d next) :
    f.Fits (next :: seen) next t stamp := by
  obtain ⟨before, hmem, hbefore⟩ := h.seen
  refine ⟨⟨before, List.mem_cons_of_mem _ hmem, hbefore⟩, ?_⟩
  intro hstamp
  rcases hnext with hsame | hgone | hnew
  · rw [stampOn?, hsame] at hstamp
    rw [contentOn?, hsame]
    exact h.current hstamp
  · simp [stampOn?, hgone] at hstamp
  · exact absurd (hbefore.trans hstamp.symm) (hnew before hmem)

/-- What a file contains goes with every stamp that it ever bore. -/
lemma fits_of_contentOn? (hseen : ∃ before ∈ seen, f.stampOn? before = some stamp)
    (h : f.contentOn? d = some (Text.encode t)) : f.Fits seen d t stamp :=
  ⟨hseen, fun _ => h⟩

lemma contentOn?_of_readText {path : Path} (hp : f.toPath? = some path) (h : d.readText path = .ok t) :
    f.contentOn? d = some (Text.encode t) := by
  obtain ⟨content, modified, hfile, hd⟩ := Disk.exists_fileAt?_of_readText h
  obtain rfl := Text.decode?_eq_some_iff.1 hd
  simp [contentOn?, fileOn?_eq_some_iff.2 ⟨path, hp, hfile⟩]

end FileId

namespace SourceCache

/-- Whether the entry of a file is a snapshot that goes with its stamp, if there is an entry. -/
def Fits (f : FileId) (seen : List Disk) (d : Disk) (c : SourceCache) : Prop :=
  ∀ entry, c.lookup? f = some entry →
    ∃ stamp, entry.stamp = some stamp ∧ f.Fits seen d entry.source.text stamp

variable {f g : FileId} {seen : List Disk} {d : Disk} {c : SourceCache}

lemma Fits.put (h : c.Fits f seen d) {source : Source} {stamp : Option FileStamp}
    (hentry : g = f → ∃ s, stamp = some s ∧ f.Fits seen d source.text s) :
    (c.put g ⟨source, stamp⟩).Fits f seen d := by
  intro entry he
  by_cases hgf : g = f
  · subst hgf
    rw [lookup?_put_self, Option.some.injEq] at he
    subst he
    exact hentry rfl
  · rw [lookup?_put_of_ne c (Ne.symm hgf)] at he
    exact h entry he

lemma Fits.forget (h : c.Fits f seen d) (g : FileId) : (c.forget g).Fits f seen d := by
  intro entry he
  by_cases hfg : f = g
  · subst hfg
    rw [lookup?_forget_self, Option.map_eq_some_iff] at he
    obtain ⟨source, hb, rfl⟩ := he
    exact h _ (buffer?_eq_some_iff.1 hb)
  · rw [lookup?_forget_of_ne c hfg] at he
    exact h entry he

lemma Fits.commit (h : c.Fits f seen d) {source : Source} {stamp : FileStamp}
    (hfits : g = f → f.Fits seen d source.text stamp) : (c.commit g source stamp).1.Fits f seen d := by
  unfold SourceCache.commit
  split
  · exact h
  · exact h.put fun e => ⟨stamp, rfl, hfits e⟩

lemma Fits.putIfVacant (h : c.Fits f seen d) {source : Source} {stamp : Option FileStamp}
    (hentry : g = f → ∃ s, stamp = some s ∧ f.Fits seen d source.text s) :
    (c.putIfVacant g ⟨source, stamp⟩).Fits f seen d := by
  unfold SourceCache.putIfVacant
  split
  · exact h
  · exact h.put hentry

lemma exists_stamp?_of_contentOn? {t : Text} (hd : d ∈ seen)
    (h : f.contentOn? d = some (Text.encode t)) :
    ∃ stamp, stamp? d f = some stamp ∧ f.Fits seen d t stamp := by
  obtain ⟨⟨content, modified⟩, hfile, hcontent⟩ := Option.map_eq_some_iff.1 h
  refine ⟨Disk.stampOf content modified, stamp?_of_fileOn? hfile, ?_⟩
  exact FileId.fits_of_contentOn? ⟨d, hd, by simp [FileId.stampOn?, hfile]⟩ h

lemma Fits.insertIfAbsent (h : c.Fits f seen d) (hd : d ∈ seen) {t : Text}
    (ht : g = f → f.contentOn? d = some (Text.encode t)) :
    (c.insertIfAbsent d g t).Fits f seen d := by
  unfold SourceCache.insertIfAbsent
  split
  · exact h
  · refine h.putIfVacant ?_
    rintro rfl
    exact exists_stamp?_of_contentOn? hd (ht rfl)

lemma Fits.load (h : c.Fits f seen d) (hd : d ∈ seen) (g : FileId) :
    (c.load d g).1.Fits f seen d := by
  have hl := loading_load c d g
  generalize (c.load d g).1 = after, (c.load d g).2 = answer at hl
  cases hl with
  | buffer _ | unnamed _ _ | cached _ _ | broken _ _ _ _ _ => exact h
  | missing _ _ | tooLarge _ _ _ _ => exact h.forget g
  | read _ hf _ _ ht =>
    obtain rfl := Text.decode?_eq_some_iff.1 ht
    refine h.put ?_
    rintro rfl
    refine ⟨_, rfl, FileId.fits_of_contentOn? ⟨d, hd, ?_⟩ ?_⟩
    · simp [FileId.stampOn?, hf]
    · simp [FileId.contentOn?, hf, Source.ofText]

lemma Fits.congr (h : c.Fits f seen d) {c' : SourceCache} (hl : c'.lookup? f = c.lookup? f) :
    c'.Fits f seen d := by
  intro entry he
  exact h entry (hl ▸ he)

/-- What a load gives from such a cache is what the file contains. -/
lemma Fits.contentOn?_eq (h : c.Fits f seen d) {source : Source}
    (hload : (c.load d f).2 = .ok source) : f.contentOn? d = some (Text.encode source.text) := by
  have hl := loading_load c d f
  rw [hload] at hl
  generalize (c.load d f).1 = after at hl
  cases hl with
  | buffer hb =>
    obtain ⟨stamp, hstamp, _⟩ := h _ (buffer?_eq_some_iff.1 hb)
    cases hstamp
  | cached hf hs =>
    obtain ⟨stamp, hstamp, hfits⟩ := h _ hs
    refine hfits.current ?_
    rw [FileId.stampOn?, hf]
    exact hstamp
  | read _ hf _ _ ht =>
    obtain rfl := Text.decode?_eq_some_iff.1 ht
    simp [FileId.contentOn?, hf, Source.ofText]

lemma stampOn?_of_loadPlan {cached : Option CacheEntry} {limit : Nat} {path : Path} {stamp : FileStamp}
    (h : loadPlan cached limit d f = .read path stamp) :
    f.toPath? = some path ∧ f.stampOn? d = some stamp := by
  unfold loadPlan at h
  split at h
  · cases h
  · split at h
    · cases h
    · rename_i p hp
      split at h
      · cases h
      · rename_i content modified hs
        dsimp only at h
        split at h
        · cases h
        · split at h
          · cases h
          · cases h
            refine ⟨hp, ?_⟩
            simp [FileId.stampOn?, FileId.fileOn?, hp, Disk.fileAt?_eq_some_iff.2 hs]
      · cases h

end SourceCache

/-- Whether what the load of a file is to do fits the disks seen so far. -/
def LoadStage.Fits (f : FileId) (seen : List Disk) (d : Disk) : LoadStage → Prop
  | asked _ before => before ∈ seen
  | reading path stamp =>
    f.toPath? = some path ∧ ∃ before ∈ seen, f.stampOn? before = some stamp
  | committing source stamp => f.Fits seen d source.text stamp
  | _ => True

/-- Whether the stamp with which a text is to be inserted goes with it. -/
def InsertStage.Fits (f : FileId) (t : Text) (seen : List Disk) (d : Disk) : InsertStage → Prop
  | stamped stamp => ∃ s, stamp = some s ∧ f.Fits seen d t s
  | _ => True

def Task.Fits (f : FileId) (seen : List Disk) (d : Disk) : Task → Prop
  | load g stage => g = f → stage.Fits f seen d
  | insert g t stage => g = f → stage.Fits f t seen d
  | _ => True

section Steps

variable {f g : FileId} {seen : List Disk} {d next : Disk} {c : SourceCache}

lemma Task.Fits.renewed {task : Task} (h : task.Fits f seen d) (hnext : f.IsRenewed seen d next) :
    task.Fits f (next :: seen) next := by
  cases task with
  | load g stage =>
    intro hgf
    have hstage := h hgf
    cases stage with
    | asked cached before => exact List.mem_cons_of_mem _ hstage
    | reading path stamp =>
      obtain ⟨hp, before, hmem, hstamp⟩ := hstage
      exact ⟨hp, before, List.mem_cons_of_mem _ hmem, hstamp⟩
    | committing source stamp => exact FileId.Fits.renewed hstage hnext
    | pending | looked _ | forgetting _ | answered _ => trivial
  | insert g t stage =>
    intro hgf
    have hstage := h hgf
    cases stage with
    | stamped stamp =>
      obtain ⟨s, hs, hfits⟩ := hstage
      exact ⟨s, hs, hfits.renewed hnext⟩
    | pending | vacant | finished => trivial
  | index _ | name _ _ | unreadable => trivial

lemma LoadStage.Fits.step (hc : c.Fits f seen d) (hd : d ∈ seen) {stage : LoadStage}
    (h : g = f → stage.Fits f seen d) :
    (stage.step g c d).1.Fits f seen d ∧ (g = f → (stage.step g c d).2.Fits f seen d) := by
  cases stage with
  | pending =>
    rw [LoadStage.step]
    split <;> exact ⟨hc, fun _ => trivial⟩
  | looked cached => exact ⟨hc, fun _ => hd⟩
  | asked cached before =>
    rw [LoadStage.step]
    split
    · exact ⟨hc, fun _ => trivial⟩
    · exact ⟨hc, fun _ => trivial⟩
    · exact ⟨hc, fun _ => trivial⟩
    · rename_i path stamp hplan
      refine ⟨hc, ?_⟩
      rintro rfl
      obtain ⟨hp, hstamp⟩ := SourceCache.stampOn?_of_loadPlan hplan
      exact ⟨hp, before, h rfl, hstamp⟩
  | forgetting error => exact ⟨hc.forget g, fun _ => trivial⟩
  | reading path stamp =>
    rw [LoadStage.step]
    split
    · exact ⟨hc, fun _ => trivial⟩
    · rename_i t ht
      refine ⟨hc, ?_⟩
      rintro rfl
      obtain ⟨hp, hseen⟩ := h rfl
      exact FileId.fits_of_contentOn? hseen (FileId.contentOn?_of_readText hp ht)
  | committing source stamp => exact ⟨hc.commit h, fun _ => trivial⟩
  | answered answer => exact ⟨hc, fun _ => trivial⟩

lemma InsertStage.Fits.step (hc : c.Fits f seen d) (hd : d ∈ seen) {t : Text} {stage : InsertStage}
    (h : g = f → stage.Fits f t seen d)
    (ht : g = f → stage = .vacant → f.contentOn? d = some (Text.encode t)) :
    (stage.step g t c d).1.Fits f seen d ∧ (g = f → (stage.step g t c d).2.Fits f t seen d) := by
  cases stage with
  | pending =>
    refine ⟨hc, fun _ => ?_⟩
    rw [InsertStage.step]
    split <;> trivial
  | vacant =>
    refine ⟨hc, ?_⟩
    rintro rfl
    exact SourceCache.exists_stamp?_of_contentOn? hd (ht rfl rfl)
  | stamped stamp => exact ⟨hc.putIfVacant h, fun _ => trivial⟩
  | finished => exact ⟨hc, fun _ => trivial⟩

/-- A step of a task keeps the entry of a file one that goes with its stamp, if the file has the text
that is to be inserted when it is asked for its stamp. -/
lemma Task.Fits.step (hc : c.Fits f seen d) (hd : d ∈ seen) {task : Task} (h : task.Fits f seen d)
    (ht : ∀ t, task = .insert f t .vacant → f.contentOn? d = some (Text.encode t)) :
    (task.step c d).1.Fits f seen d ∧ (task.step c d).2.Fits f seen d := by
  cases task with
  | load g stage => exact LoadStage.Fits.step hc hd h
  | insert g t stage =>
    refine InsertStage.Fits.step hc hd h ?_
    rintro rfl rfl
    exact ht t rfl
  | index p =>
    rw [Task.step]
    split <;> exact ⟨hc, trivial⟩
  | name p t => exact ⟨hc, fun _ => trivial⟩
  | unreadable => exact ⟨hc, trivial⟩

end Steps

/-- The disk that an event puts in place. -/
def SharedEvent.disk? : SharedEvent → Option Disk
  | whole event => event.disk?
  | _ => none

namespace SharedCache

/-- The text of a file for which an event asks the disk for the stamp. -/
def stampedText? (s : SharedCache) (f : FileId) : SharedEvent → Option Text
  | .whole (.inserted g t) => if g = f then some t else none
  | .advanced i =>
    match s.tasks[i]? with
    | some (.insert g t .vacant) => if g = f then some t else none
    | _ => none
  | _ => none

/-- Whether a file has the text that was read whenever it is asked for the stamp to go with it. -/
def StampsWhatWasRead (f : FileId) (s : SharedCache) : List SharedEvent → Prop
  | [] => True
  | event :: later =>
    (∀ t ∈ s.stampedText? f event, f.contentOn? s.disk = some (Text.encode t)) ∧
      (s.after event).StampsWhatWasRead f later

instance (f : FileId) : (s : SharedCache) → (events : List SharedEvent) →
    Decidable (s.StampsWhatWasRead f events)
  | _, [] => isTrue trivial
  | s, event :: later =>
    have := instDecidableStampsWhatWasRead f (s.after event) later
    inferInstanceAs (Decidable (_ ∧ _))

/-- Whether the entry of a file goes with its stamp, and what the tasks are about to do keeps it so. -/
structure Fits (f : FileId) (seen : List Disk) (s : SharedCache) : Prop where
  disk_mem : s.disk ∈ seen
  cache : s.cache.Fits f seen s.disk
  tasks : ∀ task ∈ s.tasks, task.Fits f seen s.disk

variable {f : FileId} {seen : List Disk} {s : SharedCache}

lemma fits_initial (f : FileId) (d : Disk) : (initial d).Fits f [d] := by
  refine ⟨List.mem_singleton.2 rfl, ?_, ?_⟩
  · intro entry h
    cases h
  · intro task h
    cases h

lemma Fits.begin (h : s.Fits f seen) {task : Task} (htask : task.Fits f seen s.disk) :
    (s.begin task).Fits f seen := by
  refine ⟨h.disk_mem, h.cache, ?_⟩
  intro other hmem
  rcases List.mem_append.1 hmem with hmem | hmem
  · exact h.tasks other hmem
  · rw [List.mem_singleton.1 hmem]
    exact htask

lemma Fits.advance (h : s.Fits f seen) (i : Nat)
    (ht : ∀ t ∈ s.stampedText? f (.advanced i), f.contentOn? s.disk = some (Text.encode t)) :
    (s.advance i).Fits f seen := by
  cases hi : s.tasks[i]? with
  | none =>
    rw [SharedCache.advance, hi]
    exact h
  | some task =>
    have hread : ∀ t, task = .insert f t .vacant → f.contentOn? s.disk = some (Text.encode t) := by
      rintro t rfl
      exact ht t (by simp [stampedText?, hi])
    obtain ⟨hcache, hnext⟩ :=
      Task.Fits.step h.cache h.disk_mem (h.tasks task (List.mem_of_getElem? hi)) hread
    rw [advance_of_getElem? hi]
    refine ⟨h.disk_mem, hcache, ?_⟩
    intro other hmem
    rcases List.mem_or_eq_of_mem_set hmem with hmem | rfl
    · exact h.tasks other hmem
    · exact hnext

/-- One event keeps the entry of a file one that goes with its stamp. -/
lemma Fits.after (h : s.Fits f seen) {event : SharedEvent} (hedits : ¬ event.Edits f)
    (ht : ∀ t ∈ s.stampedText? f event, f.contentOn? s.disk = some (Text.encode t))
    (hdisk : ∀ next ∈ event.disk?, f.IsRenewed seen s.disk next) :
    (s.after event).Fits f (event.disk?.toList ++ seen) := by
  cases event with
  | loading g => exact h.begin fun _ => trivial
  | inserting g t => exact h.begin fun _ => trivial
  | indexing p => exact h.begin trivial
  | advanced i => exact h.advance i ht
  | whole event =>
    cases event with
    | updated g t =>
      exact ⟨h.disk_mem, h.cache.congr (SourceCache.lookup?_update_of_ne _ (Ne.symm hedits) t),
        h.tasks⟩
    | removed g =>
      exact ⟨h.disk_mem, h.cache.congr (SourceCache.lookup?_remove_of_ne _ (Ne.symm hedits)), h.tasks⟩
    | inserted g t =>
      refine ⟨h.disk_mem, h.cache.insertIfAbsent h.disk_mem ?_, h.tasks⟩
      rintro rfl
      exact ht t (by simp [stampedText?])
    | loaded g => exact ⟨h.disk_mem, h.cache.load h.disk_mem g, h.tasks⟩
    | looked g => exact h
    | limited limit => exact ⟨h.disk_mem, h.cache, h.tasks⟩
    | disk next =>
      have hnext := hdisk next rfl
      refine ⟨List.mem_cons_self, ?_, fun task hmem => Task.Fits.renewed (h.tasks task hmem) hnext⟩
      intro entry he
      obtain ⟨stamp, hstamp, hfits⟩ := h.cache entry he
      exact ⟨stamp, hstamp, hfits.renewed hnext⟩

lemma disk_after (s : SharedCache) (event : SharedEvent) :
    (s.after event).disk = event.disk?.getD s.disk := by
  cases event with
  | loading _ | inserting _ _ | indexing _ => rfl
  | advanced i =>
    rw [after, advance]
    split <;> rfl
  | whole event => cases event <;> rfl

lemma Fits.run (events : List SharedEvent) (h : s.Fits f seen)
    (hedits : ∀ event ∈ events, ¬ event.Edits f)
    (hrenewed : f.IsAlwaysRenewed seen s.disk (events.filterMap SharedEvent.disk?))
    (hread : s.StampsWhatWasRead f events) : ∃ seen', (s.run events).Fits f seen' := by
  induction events generalizing s seen with
  | nil => exact ⟨seen, h⟩
  | cons event later ih =>
    obtain ⟨ht, hlater⟩ := hread
    have hself := hedits event List.mem_cons_self
    have hothers := fun other hmem => hedits other (List.mem_cons_of_mem event hmem)
    have hdisk := disk_after s event
    cases hd : event.disk? with
    | none =>
      have hstep := h.after hself ht (by simp [hd])
      rw [hd] at hdisk hstep
      rw [List.filterMap_cons_none hd] at hrenewed
      exact ih hstep hothers (hdisk ▸ hrenewed) hlater
    | some next =>
      rw [List.filterMap_cons_some hd] at hrenewed
      obtain ⟨hnext, hmore⟩ := hrenewed
      have hstep := h.after hself ht (by simpa [hd] using hnext)
      rw [hd] at hdisk hstep
      exact ih hstep hothers (hdisk ▸ hmore) hlater

/-- Tasks are at work on a cache in any order, and the disk changes between their steps. If every
change gives a file a stamp that it never bore, no editor has the file open, and the file has the text
that was read whenever it is asked for a stamp to go with that text, then its entry is always one that
is compared with the disk, and a load gives nothing but what is on disk at that moment. -/
theorem contentOn?_of_load (d : Disk) (events : List SharedEvent) (f : FileId)
    (hedits : ∀ event ∈ events, ¬ event.Edits f)
    (hrenewed : f.IsAlwaysRenewed [d] d (events.filterMap SharedEvent.disk?))
    (hread : (initial d).StampsWhatWasRead f events) :
    let s := (initial d).run events
    (∀ entry, s.cache.lookup? f = some entry → entry.stamp.isSome) ∧
      ∀ source, (s.cache.load s.disk f).2 = .ok source →
        f.contentOn? s.disk = some (Text.encode source.text) := by
  intro s
  obtain ⟨seen, h⟩ := (fits_initial f d).run events hedits hrenewed hread
  constructor
  · intro entry he
    obtain ⟨stamp, hstamp, _⟩ := h.cache entry he
    simp [hstamp]
  · intro source hload
    exact h.cache.contentOn?_eq hload

/-- A disk with a file, or without it. -/
private def fileOrNone (file : Option (String × Int)) : Disk :=
  ⟨([], .directory) :: file.toList.map fun (content, modified) =>
    ([Text.encode ['r']], .file (Text.encode content.toList) modified)⟩

/-- The file is rewritten after it was asked for its stamp by indexing, and again while it is loaded,
between the stamp and the text. It is loaded as it is then. -/
theorem contentOn?_of_load_rewritten :
    let f : FileId := ⟨"/r".toList⟩
    let s := (initial (fileOrNone (some ("a", 1)))).run [.indexing (Path.ofText "/r".toList),
      .advanced 0, .advanced 0, .advanced 0, .advanced 0,
      .whole (.disk (fileOrNone (some ("bb", 2)))), .advanced 0, .loading f, .advanced 1, .advanced 1,
      .whole (.disk (fileOrNone (some ("cc", 3)))), .advanced 1, .advanced 1, .advanced 1]
    (s.cache.load s.disk f).2 = .ok (Source.ofText "cc".toList) ∧
      f.contentOn? s.disk = some (Text.encode "cc".toList) := by
  intro f s
  have hload : (s.cache.load s.disk f).2 = .ok (Source.ofText "cc".toList) := by
    decide +kernel
  refine ⟨hload, ?_⟩
  exact (contentOn?_of_load (fileOrNone (some ("a", 1))) _ f (by decide)
    (by decide +kernel) (by decide +kernel)).2 _ hload

/-- A file is indexed. After it was read and before it is asked for its stamp it is deleted, and then
written again when its text is in the cache; or it is rewritten at once. It is served with its old text
although it was given a new stamp and no editor has it open. -/
theorem load_eq_ok_of_changed :
    let f : FileId := ⟨"/r".toList⟩
    let old := fileOrNone (some ("old", 1))
    let gone := SharedEvent.whole (.disk (fileOrNone none))
    let new := SharedEvent.whole (.disk (fileOrNone (some ("new", 2))))
    let start := [SharedEvent.indexing (Path.ofText "/r".toList), .advanced 0]
    let rest := [SharedEvent.advanced 0, .advanced 0, .advanced 0, .advanced 0]
    ∀ events ∈ [start ++ gone :: rest ++ [new], start ++ new :: rest],
      (∀ event ∈ events, ¬ event.Edits f) ∧
      f.IsAlwaysRenewed [old] old (events.filterMap SharedEvent.disk?) ∧
      let s := (initial old).run events
      (s.cache.load s.disk f).2 = .ok (Source.ofText "old".toList) ∧
        f.contentOn? s.disk = some (Text.encode "new".toList) := by
  decide +kernel

end SharedCache

end KeywordCompletion
