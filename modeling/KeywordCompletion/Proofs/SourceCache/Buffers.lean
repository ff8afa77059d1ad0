import KeywordCompletion.Proofs.SourceCache.Refreshing
import KeywordCompletion.Proofs.SourceCache.Tasks

/-!
# Buffers while tasks are at work

A task decides by an entry that it looked up some steps ago, so a buffer may be put in place behind its
back. No step of any task takes a buffer away or replaces it, and a load that meets the buffer, at its
start or when it is about to keep what it has read, answers with it: `lookup?_of_updated`.
-/

namespace KeywordCompletion

namespace SourceCache

variable {c : SourceCache} {d : Disk} {f : FileId} {source : Source}

lemma buffer?_update_self (c : SourceCache) (f : FileId) (t : Text) :
    (c.update f t).buffer? f = some (Source.ofText t) :=
  buffer?_eq_some_iff.2 (lookup?_update_self c f t)

lemma buffer?_update_of_ne (c : SourceCache) {f g : FileId} (h : g ≠ f) (t : Text) :
    (c.update f t).buffer? g = c.buffer? g :=
  buffer?_congr (lookup?_update_of_ne c h t)

lemma buffer?_remove_of_ne (c : SourceCache) {f g : FileId} (h : g ≠ f) :
    (c.remove f).buffer? g = c.buffer? g :=
  buffer?_congr (lookup?_remove_of_ne c h)

lemma buffer?_load (c : SourceCache) (d : Disk) (f g : FileId) :
    (c.load d f).1.buffer? g = c.buffer? g :=
  (refreshes_load c d f).buffer?_eq g

lemma commit_of_buffer? (h : c.buffer? f = some source) (read : Source) (stamp : FileStamp) :
    c.commit f read stamp = (c, source) := by
  rw [commit, buffer?_eq_some_iff.1 h]

lemma buffer?_commit (h : c.buffer? f = some source) (g : FileId) (read : Source) (stamp : FileStamp) :
    (c.commit g read stamp).1.buffer? f = some source := by
  by_cases hfg : f = g
  · subst hfg
    rw [commit_of_buffer? h]
    exact h
  · unfold commit
    split
    · exact h
    · exact (buffer?_congr (lookup?_put_of_ne c hfg _)).trans h

lemma buffer?_putIfVacant (h : c.buffer? f = some source) (g : FileId) (entry : CacheEntry) :
    (c.putIfVacant g entry).buffer? f = some source := by
  unfold putIfVacant
  split
  · exact h
  · rename_i hvacant
    refine (buffer?_congr (lookup?_put_of_ne c ?_ _)).trans h
    rintro rfl
    exact hvacant (contains_iff.2 (Or.inl (by simp [h])))

lemma buffer?_insertIfAbsent (h : c.buffer? f = some source) (d : Disk) (g : FileId) (t : Text) :
    (c.insertIfAbsent d g t).buffer? f = some source := by
  unfold insertIfAbsent
  split
  · exact h
  · exact buffer?_putIfVacant h g _

end SourceCache

/-- Whether the next step of a load is to look at the entry of its file. -/
def LoadStage.MeetsEntry : LoadStage → Prop
  | pending | committing _ _ => True
  | _ => False

/-- Whether an event puts or removes the buffer of a file. -/
def SharedEvent.Edits (f : FileId) : SharedEvent → Prop
  | whole (.updated g _) | whole (.removed g) => g = f
  | _ => False

instance (f : FileId) : DecidablePred (SharedEvent.Edits f)
  | .whole (.updated g _) | .whole (.removed g) => inferInstanceAs (Decidable (g = f))
  | .whole (.inserted _ _) | .whole (.loaded _) | .whole (.looked _) | .whole (.limited _)
  | .whole (.disk _) | .loading _ | .inserting _ _ | .indexing _ | .advanced _ => isFalse id

section Steps

variable {c : SourceCache} {f : FileId} {source : Source}

lemma LoadStage.buffer?_step (h : c.buffer? f = some source) (d : Disk) (g : FileId)
    (stage : LoadStage) : (stage.step g c d).1.buffer? f = some source := by
  cases stage with
  | pending =>
    rw [step]
    split <;> exact h
  | asked cached seen =>
    rw [step]
    split <;> exact h
  | reading path stamp =>
    rw [step]
    split <;> exact h
  | forgetting error => exact (SourceCache.buffer?_forget c g f).trans h
  | committing read stamp => exact SourceCache.buffer?_commit h g read stamp
  | looked _ | answered _ => exact h

lemma InsertStage.buffer?_step (h : c.buffer? f = some source) (d : Disk) (g : FileId) (t : Text)
    (stage : InsertStage) : (stage.step g t c d).1.buffer? f = some source := by
  cases stage with
  | stamped stamp => exact SourceCache.buffer?_putIfVacant h g _
  | pending | vacant | finished => exact h

lemma Task.buffer?_step (h : c.buffer? f = some source) (d : Disk) (task : Task) :
    (task.step c d).1.buffer? f = some source := by
  cases task with
  | load g stage => exact stage.buffer?_step h d g
  | insert g t stage => exact stage.buffer?_step h d g t
  | index p =>
    rw [step]
    split <;> exact h
  | name p t | unreadable => exact h

/-- A load that looks at the entry of its file, where there is a buffer, answers with the buffer. -/
lemma LoadStage.step_of_buffer? (h : c.buffer? f = some source) (d : Disk) {stage : LoadStage}
    (hstage : stage.MeetsEntry) : (stage.step f c d).2 = answered (.ok source) := by
  cases stage with
  | pending => rw [step, h]
  | committing read stamp => rw [step, SourceCache.commit_of_buffer? h]
  | looked _ | asked _ _ | forgetting _ | reading _ _ | answered _ => exact hstage.elim

end Steps

namespace SharedCache

variable {s : SharedCache} {f : FileId} {source : Source}

lemma buffer?_after (h : s.cache.buffer? f = some source) {event : SharedEvent}
    (hevent : ¬ event.Edits f) : (s.after event).cache.buffer? f = some source := by
  cases event with
  | loading _ | inserting _ _ | indexing _ => exact h
  | advanced i =>
    rw [after, advance]
    split
    · exact Task.buffer?_step h s.disk _
    · exact h
  | whole event =>
    cases event with
    | updated g t => exact (SourceCache.buffer?_update_of_ne s.cache (Ne.symm hevent) t).trans h
    | removed g => exact (SourceCache.buffer?_remove_of_ne s.cache (Ne.symm hevent)).trans h
    | inserted g t => exact SourceCache.buffer?_insertIfAbsent h s.disk g t
    | loaded g => exact (SourceCache.buffer?_load s.cache s.disk g f).trans h
    | looked _ | limited _ | disk _ => exact h

lemma buffer?_run (h : s.cache.buffer? f = some source) {events : List SharedEvent}
    (hevents : ∀ event ∈ events, ¬ event.Edits f) :
    (s.run events).cache.buffer? f = some source := by
  refine List.foldlRecOn (motive := fun s : SharedCache => s.cache.buffer? f = some source)
    events SharedCache.after h ?_
  intro s hs event hmem
  exact buffer?_after hs (hevents event hmem)

lemma getElem?_after_of_answered {i : Nat} {answer : Except LoadError Source}
    (h : s.tasks[i]? = some (.load f (.answered answer))) (event : SharedEvent) :
    (s.after event).tasks[i]? = some (.load f (.answered answer)) := by
  have hlt : i < s.tasks.length := (List.getElem?_eq_some_iff.1 h).1
  cases event with
  | whole event => exact h
  | loading _ | inserting _ _ | indexing _ => exact (List.getElem?_append_left hlt).trans h
  | advanced j =>
    rw [after, advance]
    split
    · rename_i task htask
      by_cases hij : j = i
      · subst hij
        rw [h, Option.some.injEq] at htask
        subst htask
        exact List.getElem?_set_self hlt
      · exact (List.getElem?_set_ne hij).trans h
    · exact h

lemma getElem?_run_of_answered {i : Nat} {answer : Except LoadError Source}
    (h : s.tasks[i]? = some (.load f (.answered answer))) (events : List SharedEvent) :
    (s.run events).tasks[i]? = some (.load f (.answered answer)) :=
  List.foldlRecOn (motive := fun s : SharedCache => s.tasks[i]? = some (.load f (.answered answer)))
    events SharedCache.after h fun _ hs event _ => getElem?_after_of_answered hs event

lemma getElem?_advance_of_buffer? (h : s.cache.buffer? f = some source) {i : Nat} {stage : LoadStage}
    (htask : s.tasks[i]? = some (.load f stage)) (hstage : stage.MeetsEntry) :
    (s.advance i).tasks[i]? = some (.load f (.answered (.ok source))) := by
  have hstep : (Task.step s.cache s.disk (.load f stage)).2 = .load f (.answered (.ok source)) :=
    congrArg (Task.load f) (stage.step_of_buffer? h s.disk hstage)
  rw [advance_of_getElem? htask, hstep]
  exact List.getElem?_set_self (List.getElem?_eq_some_iff.1 htask).1

/-- Once the buffer of a file is put in place, it is the entry of the file until the next update or
removal of it, whatever tasks take their steps meanwhile and however the disk changes. A load that
looks at the entry while it is there answers with its text, whatever happens after that. -/
theorem lookup?_of_updated (s : SharedCache) (f : FileId) (t : Text) (events : List SharedEvent)
    (hevents : ∀ event ∈ events, ¬ event.Edits f) :
    let s' := (s.after (.whole (.updated f t))).run events
    s'.cache.lookup? f = some ⟨Source.ofText t, none⟩ ∧
      ∀ i stage, s'.tasks[i]? = some (.load f stage) → stage.MeetsEntry → ∀ later,
        ((s'.after (.advanced i)).run later).tasks[i]? =
          some (.load f (.answered (.ok (Source.ofText t)))) := by
  intro s'
  have hb : s'.cache.buffer? f = some (Source.ofText t) :=
    buffer?_run (SourceCache.buffer?_update_self s.cache f t) hevents
  refine ⟨SourceCache.buffer?_eq_some_iff.1 hb, ?_⟩
  intro i stage htask hstage later
  exact getElem?_run_of_answered (getElem?_advance_of_buffer? hb htask hstage) later

/-- A disk with a file of a single line. -/
private def oneLine (content : String) : Disk :=
  ⟨[([], .directory), ([Text.encode ['r']], .file (Text.encode content.toList) 1)]⟩

/-- The buffer is put in place between the steps of a load, which has read the file and is about to
keep it, and of an insertion, which found no entry. The file is deleted, the insertion ends, and
another load begins. -/
theorem lookup?_of_updated_reading :
    let f : FileId := ⟨"/r".toList⟩
    let s := (initial (oneLine "a")).run [.loading f, .advanced 0, .advanced 0, .advanced 0,
      .advanced 0, .inserting f "a".toList, .advanced 1, .advanced 1]
    let s' := (s.after (.whole (.updated f "edited".toList))).run
      [.whole (.disk ⟨[]⟩), .advanced 1, .loading f]
    s'.cache.lookup? f = some ⟨Source.ofText "edited".toList, none⟩ ∧
      ((s'.after (.advanced 0)).run [.whole (.removed f)]).tasks[0]? =
        some (.load f (.answered (.ok (Source.ofText "edited".toList)))) ∧
      ((s'.after (.advanced 2)).run []).tasks[2]? =
        some (.load f (.answered (.ok (Source.ofText "edited".toList)))) := by
  intro f s s'
  obtain ⟨hentry, hanswer⟩ := lookup?_of_updated s f "edited".toList
    [.whole (.disk ⟨[]⟩), .advanced 1, .loading f] (by decide)
  have hcommitting : s'.tasks[0]? = some (.load f (.committing (Source.ofText "a".toList) ⟨1, 1⟩)) := by
    decide +kernel
  have hpending : s'.tasks[2]? = some (.load f .pending) := by
    decide +kernel
  exact ⟨hentry, hanswer 0 _ hcommitting trivial _, hanswer 2 _ hpending trivial _⟩

end SharedCache

end KeywordCompletion
